import ConcurrentWebServer.ServerModel
import Mathlib.Algebra.BigOperators.Group.Finset.Basic
import Mathlib.Algebra.Order.Group.Multiset
import Mathlib.Data.Fintype.Option
import Mathlib.Tactic.Abel
set_option autoImplicit false

/-!
The life of a connection between `accept` and `close`: who holds its
descriptor, and what is still to be done for it.
-/

namespace ConcurrentWebServer.Server
open Execution MesaMonitor Queueing Requests

inductive Stage where
  | parsing : Stage
  | page : ErrorPage → Stage
  | ready : Request → Stage
  | header : Request → List UInt8 → Stage
  | body : Request → List UInt8 → Stage
  | forking : Request → Stage
  | waiting : Stage
  | last : Stage

/-- A descriptor somebody holds, for which connection, and how far that is. -/
structure Role where
  fd : Nat
  conn : Nat
  stage : Stage

def Role.key (r : Role) : Nat × Nat := (r.fd,r.conn)

def Job.role (job : Job) (stage : Stage) : Role := ⟨job.req.connFd,job.conn,stage⟩

def Job.ready (job : Job) : Role := job.role (.ready job.req)

def AcceptorPc.roles : AcceptorPc → Multiset Role
  | .accepting | .putting => 0
  | .parsing fd c => {⟨fd,c,.parsing⟩}
  | .refusing fd c p => {⟨fd,c,.page p⟩}
  | .closing fd c => {⟨fd,c,.last⟩}
  | .submitting job => {job.ready}

def WorkerPc.roles : WorkerPc → Multiset Role
  | .idle | .getting => 0
  | .serving job => {job.ready}
  | .mapped job _ srcp | .header job srcp => {job.role (.header job.req srcp)}
  | .body job srcp => {job.role (.body job.req srcp)}
  | .forking job => {job.role (.forking job.req)}
  | .waiting job => {job.role .waiting}
  | .closing job => {job.role .last}

def flight : Weights (Op Job) (Done Job) (Buffer Job) (Multiset Job) where
  op
    | .put job => {job}
    | .get => 0
  res
    | .put _ => 0
    | .got job => {job}
  shared b := b.contents

theorem flight_conserved :
    flight.Conserved (bufferMonitor Job.filesize) Buffer.Sound := by
  intro op b r b' h hb hr
  obtain ⟨_,_,_,hcases⟩ := body_cases Job.filesize h hb hr
  rcases hcases with ⟨job,rfl,rfl,hput⟩ | ⟨job,rfl,rfl,ht⟩
  · simp only [flight,hput,zero_add,← Multiset.coe_add,Multiset.coe_singleton]
    exact add_comm _ _
  · simp only [flight,zero_add]
    exact (Multiset.coe_eq_coe.mpr (ht.perm Job.filesize)).symm

section Roles

variable {W : Type} [Fintype W]

def Process.flying (s : Process W) : Multiset Job := flight.total s.monitor

def Process.roles (s : Process W) : Multiset Role :=
  s.acceptor.roles + s.flying.map Job.ready + ∑ w, (s.worker w).roles

variable [DecidableEq W]

/-- A sum over the workers, but for the term of worker `w`. -/
theorem sum_worker {A : Type} [AddCommMonoid A] (g : W → WorkerPc → A) (f : W → WorkerPc) (w : W) :
    ∃ R, ∑ u, g u (f u) = g w (f w) + R ∧
      ∀ p, ∑ u, g u (Function.update f w p u) = g w p + R := by
  refine ⟨∑ u ∈ Finset.univ.erase w, g u (f u),
    (Finset.add_sum_erase _ (fun u => g u (f u)) (Finset.mem_univ w)).symm,fun p => ?_⟩
  rw [← Finset.add_sum_erase _ _ (Finset.mem_univ w),Function.update_self]
  congr 1
  apply Finset.sum_congr rfl
  intro u hu
  rw [Function.update_of_ne (Finset.ne_of_mem_erase hu)]

theorem roles_of_worker (s : Process W) (w : W) :
    ∃ R, s.roles = (s.worker w).roles + R ∧ ∀ (p : WorkerPc) (s' : Process W),
      s'.acceptor = s.acceptor → s'.monitor = s.monitor →
      s'.worker = Function.update s.worker w p → s'.roles = p.roles + R := by
  obtain ⟨R,hR,hp⟩ := sum_worker (fun _ p => p.roles) s.worker w
  refine ⟨s.acceptor.roles + s.flying.map Job.ready + R,?_,fun p s' ha hm hw => ?_⟩
  · rw [Process.roles,hR]
    exact add_left_comm _ _ _
  · rw [Process.roles,Process.flying,ha,hm,hw,hp]
    exact add_left_comm _ _ _

omit [DecidableEq W] in
theorem roles_head {s : Process W} {r : Role} {R : Multiset Role} (h : s.roles = r ::ₘ R) :
    r ∈ s.roles := by
  rw [h]
  exact Multiset.mem_cons_self _ _

omit [DecidableEq W] in
theorem roles_tail {s : Process W} {r₀ r : Role} {R : Multiset Role} (h : s.roles = r₀ ::ₘ R)
    (hr : r ∈ R) : r ∈ s.roles := by
  rw [h]
  exact Multiset.mem_cons_of_mem hr

omit [DecidableEq W] in
theorem roles_of_acceptor (s : Process W) :
    ∃ R, s.roles = s.acceptor.roles + R ∧ ∀ s' : Process W,
      s'.monitor = s.monitor → s'.worker = s.worker → s'.roles = s'.acceptor.roles + R := by
  refine ⟨s.flying.map Job.ready + ∑ w, (s.worker w).roles,add_assoc _ _ _,fun s' hm hw => ?_⟩
  rw [Process.roles,Process.flying,hm,hw]
  exact add_assoc _ _ _

end Roles

section Changes

inductive Advance (fs : FileSystem) (fd : Nat) : Stage → Conn → Stage → Conn → Prop where
  | refuse {f : Frame} {p : ErrorPage} {conn conn' : Conn} :
      Decides fs f fd conn (.error p) conn' → Advance fs fd .parsing conn (.page p) conn'
  | approve {f : Frame} {req : Request} {conn conn' : Conn} :
      Decides fs f fd conn (.ok req) conn' → Advance fs fd .parsing conn (.ready req) conn'
  | page {p : ErrorPage} {conn conn' : Conn} :
      writeAll conn p.chunks = .done conn' → Advance fs fd (.page p) conn .last conn'
  | map {req : Request} {content srcp : List UInt8} {conn : Conn} :
      req.isStatic = true → openOrDie fs req.filename = .done content →
      mmapOrDie content req.filesize = .done srcp →
      Advance fs fd (.ready req) conn (.header req srcp) conn
  | header {req : Request} {srcp : List UInt8} {conn conn' : Conn} :
      writeOrDie conn (staticHeader req.filesize (requestGetFiletype req.filename)) = .done conn' →
      Advance fs fd (.header req srcp) conn (.body req srcp) conn'
  | body {req : Request} {srcp : List UInt8} {conn conn' : Conn} :
      writeMapped conn srcp req.filesize = .done conn' →
      Advance fs fd (.body req srcp) conn .last conn'
  | status {req : Request} {conn conn' : Conn} :
      req.isStatic = false → writeOrDie conn dynamicHeader = .done conn' →
      Advance fs fd (.ready req) conn (.forking req) conn'

variable {W : Type} [Fintype W]

def SameConns (s s' : Process W) : Prop :=
  ∀ fd c, s'.fds fd = some (.conn c) ↔ s.fds fd = some (.conn c)

/-- All that a step does to the connections. -/
inductive Change (fs : FileSystem) (inputs : Nat → Stream' Received) (s s' : Process W) : Prop where
  | accept (fd : Nat) :
      s.fds fd = none → s'.fds = Function.update s.fds fd (some (.conn s.accepted)) →
      s'.conns = Function.update s.conns s.accepted
        (Conn.fresh (inputs s.accepted) (Stream'.const .all)) →
      s'.roles = ⟨fd,s.accepted,.parsing⟩ ::ₘ s.roles → s'.accepted = s.accepted+1 →
      s'.closed = s.closed → s'.children = s.children → Change fs inputs s s'
  | advance {fd c : Nat} {st st' : Stage} {conn : Conn} {R : Multiset Role} :
      s.roles = ⟨fd,c,st⟩ ::ₘ R → s'.roles = ⟨fd,c,st'⟩ ::ₘ R →
      Advance fs fd st (s.conns c) st' conn → s'.conns = Function.update s.conns c conn →
      SameConns s s' → s'.accepted = s.accepted → s'.closed = s.closed →
      s'.children = s.children → Change fs inputs s s'
  | quiet :
      s'.roles = s.roles → s'.conns = s.conns → SameConns s s' → s'.accepted = s.accepted →
      s'.closed = s.closed → s'.children = s.children → Change fs inputs s s'
  | fork {fd c : Nat} {req : Request} {R : Multiset Role} {child : Child} :
      s.roles = ⟨fd,c,.forking req⟩ ::ₘ R → s'.roles = ⟨fd,c,.waiting⟩ ::ₘ R →
      fs.execve req.filename req.cgiargs = some child.output → child.conn = c →
      child.exited = false → child.fds STDOUT_FILENO = some (.conn c) →
      s'.children = s.children ++ [child] → s'.conns = s.conns → s'.fds = s.fds →
      s'.accepted = s.accepted → s'.closed = s.closed → Change fs inputs s s'
  | childWrite {left right : List Child} {child : Child} {chunk rest : List UInt8} {i : Nat} :
      s.children = left ++ child :: right → child.exited = false →
      child.output = chunk ++ rest → child.fds STDOUT_FILENO = some (.conn i) →
      s'.children = left ++ { child with output := rest } :: right →
      s'.conns = Function.update s.conns i
        { s.conns i with sent := (s.conns i).sent ++ chunk } →
      s'.roles = s.roles → s'.fds = s.fds → s'.accepted = s.accepted → s'.closed = s.closed →
      Change fs inputs s s'
  | childExit {left right : List Child} {child : Child} :
      s.children = left ++ child :: right → child.exited = false → child.output = [] →
      s'.children = left ++ { child with exited := true, fds := fun _ => none } :: right →
      s'.conns = s.conns → s'.roles = s.roles → s'.fds = s.fds → s'.accepted = s.accepted →
      s'.closed = s.closed → Change fs inputs s s'
  | wait {fd c : Nat} {R : Multiset Role} {left right : List Child} {child : Child} {w : W}
      {job : Job} :
      s.roles = ⟨fd,c,.waiting⟩ ::ₘ R → s'.roles = ⟨fd,c,.last⟩ ::ₘ R →
      s.worker w = .waiting job → s'.worker w = .closing job → job.conn = c →
      s.children = left ++ child :: right → child.exited = true →
      s'.children = left ++ right → s'.conns = s.conns → s'.fds = s.fds →
      s'.accepted = s.accepted → s'.closed = s.closed → Change fs inputs s s'
  | close {fd c : Nat} {R : Multiset Role} {conn : Conn} (who : Option W) :
      s.roles = ⟨fd,c,.last⟩ ::ₘ R → s'.roles = R → closeOrDie (s.conns c) = .done conn →
      s'.conns = Function.update s.conns c conn → s'.fds = Function.update s.fds fd none →
      s'.closed = (c,who) ::ₘ s.closed → s'.accepted = s.accepted →
      s'.children = s.children → Change fs inputs s s'

def Process.held (s : Process W) : Multiset (Nat × Nat) := s.roles.map Role.key

/-- The descriptors of connections are the held ones, each held once; every
connection so far is either held or closed, and that once. -/
structure Owned (s : Process W) : Prop where
  table (fd c : Nat) : s.fds fd = some (.conn c) ↔ (fd,c) ∈ s.held
  distinct : (s.held.map Prod.fst).Nodup
  ids : s.held.map Prod.snd + s.closed.map Prod.fst = Multiset.range s.accepted

omit [Fintype W] in
structure Sources (s : Process W) : Prop where
  opened {w : W} {job : Job} {srcfd : Nat} {srcp : List UInt8} :
    s.worker w = .mapped job srcfd srcp → s.fds srcfd = some .file
  apart {v w : W} {job job' : Job} {srcfd : Nat} {srcp srcp' : List UInt8} :
    s.worker v = .mapped job srcfd srcp → s.worker w = .mapped job' srcfd srcp' → v = w

theorem Owned.open {s : Process W} (h : Owned s) {fd c : Nat} {st : Stage} {R : Multiset Role}
    (hr : s.roles = ⟨fd,c,st⟩ ::ₘ R) : s.fds fd = some (.conn c) := by
  rw [h.table]
  exact Multiset.mem_map_of_mem Role.key (roles_head hr)

theorem Owned.denotes {s : Process W} (h : Owned s) {fd c i : Nat} {st : Stage}
    {R : Multiset Role} (hr : s.roles = ⟨fd,c,st⟩ ::ₘ R) (hi : s.fds fd = some (.conn i)) :
    i = c := by
  have hc := h.open hr
  rw [hi] at hc
  cases hc
  rfl

section Inversion

variable [DecidableEq W] {fs : FileSystem} {inputs : Nat → Stream' Received} {s s' : Process W}

omit [Fintype W] [DecidableEq W] in
theorem sameConns_bind {fd : Nat} {d : Option Descriptor} (h : ∀ c, s.fds fd ≠ some (.conn c))
    (hd : ∀ c, d ≠ some (.conn c)) (hs : s'.fds = Function.update s.fds fd d) : SameConns s s' := by
  intro fd' c
  rw [hs]
  by_cases he : fd' = fd
  · subst he
    simp [h c,hd c]
  · rw [Function.update_of_ne he]

theorem roles_monitor (hwf : s.monitor.shared.Sound)
    (hr : Ready (bufferMonitor Job.filesize) s.monitor)
    {l : Label (Option W) (Op Job) (Done Job)}
    {m : State (Option W) (Buffer Job) (Op Job) (Done Job)}
    (hl : MesaMonitor.Step (bufferMonitor Job.filesize) s.monitor l m) :
    (flight.total m).map Job.ready + (flight.out l).map Job.ready =
      s.flying.map Job.ready + (flight.into l).map Job.ready := by
  rw [← Multiset.map_add,← Multiset.map_add,flight.total_step flight_conserved hwf hr hl]
  rfl

/-- A thread goes into the buffer, through it or out of it, and what the buffer
takes or gives is what the threads lose or win. -/
theorem monitor_change (hwf : s.monitor.shared.Sound)
    (hr : Ready (bufferMonitor Job.filesize) s.monitor)
    {l : Label (Option W) (Op Job) (Done Job)}
    {m : State (Option W) (Buffer Job) (Op Job) (Done Job)}
    (hl : MesaMonitor.Step (bufferMonitor Job.filesize) s.monitor l m)
    {p : AcceptorPc} {worker : W → WorkerPc} {taken : Multiset (Nat × W)}
    (h : p.roles + ∑ w, (worker w).roles + (flight.into l).map Job.ready =
      s.acceptor.roles + ∑ w, (s.worker w).roles + (flight.out l).map Job.ready) :
    Change fs inputs s
      { s with acceptor := p, monitor := m, worker := worker, taken := taken } := by
  have ht := roles_monitor hwf hr hl
  refine .quiet (add_right_cancel (b := (flight.out l).map Job.ready) ?_) rfl
    (fun _ _ => Iff.rfl) rfl rfl rfl
  calc p.roles + (flight.total m).map Job.ready + ∑ w, (worker w).roles +
        (flight.out l).map Job.ready
      = p.roles + ∑ w, (worker w).roles +
          ((flight.total m).map Job.ready + (flight.out l).map Job.ready) := by abel
    _ = p.roles + ∑ w, (worker w).roles + (flight.into l).map Job.ready +
          s.flying.map Job.ready := by rw [ht]; abel
    _ = s.acceptor.roles + s.flying.map Job.ready + ∑ w, (s.worker w).roles +
          (flight.out l).map Job.ready := by rw [h]; abel

omit [DecidableEq W] in
theorem acceptor_advance (h : Owned s) {fd c i : Nat} {st st' : Stage} {conn : Conn}
    {p : AcceptorPc} {refused : Multiset Nat} (hst : s.acceptor.roles = {⟨fd,c,st⟩})
    (hst' : p.roles = {⟨fd,c,st'⟩}) (hi : s.fds fd = some (.conn i))
    (hadv : Advance fs fd st (s.conns i) st' conn) :
    Change fs inputs s { s.touch i conn with acceptor := p, refused := refused } := by
  obtain ⟨R,hR,hR'⟩ := roles_of_acceptor s
  rw [hst] at hR
  have hc := h.denotes hR hi
  subst hc
  refine .advance hR ((hR' _ (by rfl) (by rfl)).trans ?_) hadv rfl (fun _ _ => Iff.rfl) rfl rfl rfl
  exact congrArg (· + R) hst'

theorem worker_advance (h : Owned s) {w : W} {p p' : WorkerPc} {fd c i : Nat} {st st' : Stage}
    {conn : Conn} (hw : s.worker w = p) (hst : p.roles = {⟨fd,c,st⟩})
    (hst' : p'.roles = {⟨fd,c,st'⟩}) (hi : s.fds fd = some (.conn i))
    (hadv : Advance fs fd st (s.conns i) st' conn) :
    Change fs inputs s ((s.touch i conn).work w p') := by
  obtain ⟨R,hR,hR'⟩ := roles_of_worker s w
  rw [hw,hst] at hR
  have hc := h.denotes hR hi
  subst hc
  refine .advance hR ((hR' p' _ (by rfl) (by rfl) (by rfl)).trans ?_) hadv rfl
    (fun _ _ => Iff.rfl) rfl rfl rfl
  exact congrArg (· + R) hst'

theorem step_change (hwf : s.monitor.shared.Sound)
    (hr : Ready (bufferMonitor Job.filesize) s.monitor) (h : Owned s) (hf : Sources s)
    (hl : Step fs inputs s s') : Change fs inputs s s' := by
  cases hl with
  | accept fd ha hfd =>
    obtain ⟨R,hR,hR'⟩ := roles_of_acceptor s
    refine .accept fd hfd rfl rfl ?_ rfl rfl rfl
    rw [hR,ha]
    refine (hR' _ (by rfl) (by rfl)).trans ?_
    rw [← Multiset.singleton_add]
    exact congrArg (_ + ·) (zero_add R).symm
  | refuse ha hi hd => exact acceptor_advance h (by rw [ha]; rfl) rfl hi (.refuse hd)
  | approve ha hi hd =>
    obtain ⟨_,_,hv,_⟩ := decides_ok hd
    obtain ⟨_,_,_,rfl⟩ := verdict_ok hv
    exact acceptor_advance h (by rw [ha]; rfl) rfl hi (.approve hd)
  | page ha hi hw => exact acceptor_advance h (by rw [ha]; rfl) rfl hi (.page hw)
  | @reject fd c i conn ha hi hc =>
    obtain ⟨R,hR,hR'⟩ := roles_of_acceptor s
    rw [ha] at hR
    have he := h.denotes hR hi
    subst he
    refine .close none hR ?_ hc rfl rfl rfl rfl rfl
    exact (hR' _ (by rfl) (by rfl)).trans (zero_add R)
  | @submit job m ha hm =>
    refine monitor_change hwf hr hm ?_
    rw [ha]
    change 0 + ∑ u, (s.worker u).roles + {job.ready} = {job.ready} + ∑ u, (s.worker u).roles + 0
    abel
  | submitted ha hm =>
    refine monitor_change hwf hr hm ?_
    rw [ha]
    rfl
  | internal hm => exact monitor_change hwf hr hm rfl
  | @fetch w m hw hm =>
    obtain ⟨R,hR,hR'⟩ := sum_worker (fun _ p => p.roles) s.worker w
    refine monitor_change hwf hr hm ?_
    change _ + ∑ u, (Function.update s.worker w .getting u).roles + 0 = _
    rw [hR,hR',hw]
    rfl
  | @fetched w job m hw hm =>
    obtain ⟨R,hR,hR'⟩ := sum_worker (fun _ p => p.roles) s.worker w
    refine monitor_change hwf hr hm ?_
    change _ + ∑ u, (Function.update s.worker w (.serving job) u).roles + 0 = _ + _ + {job.ready}
    rw [hR,hR',hw]
    change s.acceptor.roles + ({job.ready} + R) + 0 = s.acceptor.roles + (0 + R) + {job.ready}
    abel
  | @openFile w job srcfd content srcp hw hst hfd ho hm =>
    obtain ⟨R,hR,hR'⟩ := roles_of_worker s w
    rw [hw] at hR
    refine .advance hR (hR' (.mapped job srcfd srcp) _ (by rfl) (by rfl) (by rfl))
      (.map hst ho hm) ?_ ?_ rfl rfl rfl
    · exact (Function.update_eq_self _ _).symm
    · exact sameConns_bind (by simp [hfd]) (by simp) rfl
  | @closeFile w job srcfd srcp hw hfd =>
    obtain ⟨R,hR,hR'⟩ := roles_of_worker s w
    rw [hw] at hR
    refine .quiet ?_ rfl ?_ rfl rfl rfl
    · exact (hR' (.header job srcp) _ (by rfl) (by rfl) (by rfl)).trans hR.symm
    · exact sameConns_bind (by simp [hf.opened hw]) (by simp) rfl
  | header hw hi hwrite => exact worker_advance h hw rfl rfl hi (.header hwrite)
  | body hw hi hwrite => exact worker_advance h hw rfl rfl hi (.body hwrite)
  | status hw hst hi hwrite => exact worker_advance h hw rfl rfl hi (.status hst hwrite)
  | @fork w job output hw hx =>
    obtain ⟨R,hR,hR'⟩ := roles_of_worker s w
    rw [hw] at hR
    refine .fork hR (hR' (.waiting job) _ (by rfl) (by rfl) (by rfl)) hx rfl rfl ?_ rfl rfl rfl
      rfl rfl
    have hfd : s.fds job.req.connFd = some (.conn job.conn) := h.open hR
    exact (dup2_self s.fds _ STDOUT_FILENO).trans hfd
  | @childWrite left right child chunk rest i hch hex hout hfd =>
    exact .childWrite hch hex hout hfd rfl rfl rfl rfl rfl rfl
  | @childExit left right child hch hex hout =>
    exact .childExit hch hex hout rfl rfl rfl rfl rfl rfl
  | @wait w job left right child hw hch hex =>
    obtain ⟨R,hR,hR'⟩ := roles_of_worker s w
    rw [hw] at hR
    exact .wait hR (hR' (.closing job) _ (by rfl) (by rfl) (by rfl)) hw
      (Function.update_self _ _ _) rfl hch hex rfl rfl rfl rfl rfl
  | @close w job i conn hw hi hc =>
    obtain ⟨R,hR,hR'⟩ := roles_of_worker s w
    rw [hw] at hR
    have he := h.denotes hR hi
    subst he
    refine .close (some w) hR ?_ hc rfl rfl rfl rfl rfl
    exact (hR' .idle _ (by rfl) (by rfl) (by rfl)).trans (zero_add R)

end Inversion

end Changes

end ConcurrentWebServer.Server
