import ConcurrentWebServer.CapacityOverflow
import ConcurrentWebServer.SequentialHandler
import ConcurrentWebServer.ServerModel
set_option autoImplicit false

/-! Runs of the server, built from what happens to one request: it is taken in
and queued, and a worker fetches it. -/

namespace ConcurrentWebServer.Server
open Execution CStrings MesaMonitor Queueing Requests

section Patience

variable {W : Type} {fs : FileSystem} {inputs : Nat → Stream' Received} {s s' : Process W}

/-- The `wait(NULL)` of a worker only returns once the child that the worker
forked has exited. -/
def Patient (s s' : Process W) : Prop :=
  ∀ w job, s.worker w = .waiting job → s'.worker w = .closing job →
    ∀ k ∈ s.children, k.conn = job.conn → k.exited = true

theorem patient_same (h : s'.worker = s.worker) : Patient s s' := by
  intro w job hw hw'
  rw [h,hw] at hw'
  cases hw'

variable [DecidableEq W]

theorem patient_work {w : W} {p : WorkerPc} (h : s'.worker = Function.update s.worker w p)
    (hp : ∀ job, p ≠ .closing job) : Patient s s' := by
  intro u job hu hu'
  rw [h] at hu'
  by_cases he : u = w
  · subst he
    rw [Function.update_self] at hu'
    exact absurd hu' (hp job)
  · rw [Function.update_of_ne he,hu] at hu'
    cases hu'

def PatientReaches (fs : FileSystem) (inputs : Nat → Stream' Received) :
    Process W → Process W → Prop :=
  Relation.ReflTransGen fun s s' => Step fs inputs s s' ∧ Patient s s'

theorem reaches_of_patient (h : PatientReaches fs inputs s s') : Reaches fs inputs s s' := by
  induction h with
  | refl => exact .refl
  | tail _ hl ih => exact ih.tail hl.1

end Patience

section Handover

variable {W : Type} {fs : FileSystem} {inputs : Nat → Stream' Received} {s s' : Process W}

structure Quiet (s : Process W) : Prop where
  owner : s.monitor.owner = none
  idle (t : Option W) : s.monitor.pc t = .idle

structure Queued (s : Process W) (fd : Nat) (req : Request) (s' : Process W) : Prop where
  quiet : Quiet s'
  acceptor : s'.acceptor = .accepting
  accepted : s'.accepted = s.accepted+1
  fds : s'.fds = Function.update s.fds fd (some (.conn s.accepted))
  outcomes : (s'.conns s.accepted).outcomes = Stream'.const .all
  shared : s'.monitor.shared = bufferPut s.monitor.shared ⟨req,s.accepted⟩
  worker : s'.worker = s.worker
  closed : s'.closed = s.closed
  children : s'.children = s.children

structure Fetched [DecidableEq W] (s : Process W) (w : W) (job : Job) (b : Buffer Job)
    (s' : Process W) : Prop where
  quiet : Quiet s'
  acceptor : s'.acceptor = s.acceptor
  accepted : s'.accepted = s.accepted
  fds : s'.fds = s.fds
  conns : s'.conns = s.conns
  shared : s'.monitor.shared = b
  worker : s'.worker = Function.update s.worker w (.serving job)
  closed : s'.closed = s.closed
  children : s'.children = s.children

variable [DecidableEq W]

theorem passes_monitor {m₁ m₂ m₃ : State (Option W) (Buffer Job) (Op Job) (Done Job)}
    (h₁ : MesaMonitor.Step (bufferMonitor Job.filesize) s.monitor .tau m₁)
    (h₂ : MesaMonitor.Step (bufferMonitor Job.filesize) m₁ .tau m₂)
    (h₃ : MesaMonitor.Step (bufferMonitor Job.filesize) m₂ .tau m₃) :
    PatientReaches fs inputs s { s with monitor := m₃ } := by
  have p₁ : PatientReaches fs inputs s { s with monitor := m₁ } :=
    .single ⟨.internal h₁,patient_same rfl⟩
  have p₂ : PatientReaches fs inputs s { s with monitor := m₂ } :=
    p₁.tail ⟨.internal h₂,patient_same rfl⟩
  exact p₂.tail ⟨.internal h₃,patient_same rfl⟩

theorem request_queued (h : Quiet s) (ha : s.acceptor = .accepting)
    (hroom : s.monitor.shared.full = false) {fd : Nat} (hfd : s.fds fd = none)
    {bytes method uri : List UInt8} (hin : inputs s.accepted = fromClient bytes)
    (hp : Proper bytes method uri) {req : Request} (hv : outcome fs fd method uri = .ok req) :
    ∃ s', PatientReaches fs inputs s s' ∧ Queued s fd req s' := by
  obtain ⟨rest,hd⟩ := hp.decides fs fd .zeros
  rw [hv] at hd
  have hfresh : Conn.fresh (inputs s.accepted) (Stream'.const .all) = client bytes := by
    rw [hin]
    rfl
  have p₁ : PatientReaches fs inputs s { s with
      fds := Function.update s.fds fd (some (.conn s.accepted))
      conns := Function.update s.conns s.accepted (client bytes)
      accepted := s.accepted+1
      acceptor := .parsing fd s.accepted } := by
    rw [← hfresh]
    exact .single ⟨.accept fd ha hfd,patient_same rfl⟩
  have hd' : Decides fs .zeros fd (Function.update s.conns s.accepted (client bytes) s.accepted)
      (.ok req) { client bytes with input := rest } := by
    rw [Function.update_self]
    exact hd
  have p₂ := p₁.tail ⟨.approve rfl (Function.update_self _ _ _) hd',patient_same rfl⟩
  have hput : (bufferMonitor Job.filesize).blocked (.put ⟨req,s.accepted⟩) s.monitor.shared =
      false := hroom
  obtain ⟨m₁,m₂,m₃,m₄,h₁,h₂,h₃,h₄,h₅⟩ := goes_through (t := main) h.owner h.idle hput rfl
  have p₃ := p₂.tail ⟨.submit rfl h₁,patient_same rfl⟩
  have p₄ := p₃.trans (passes_monitor h₂ h₃ h₄)
  refine ⟨_,p₄.tail ⟨.submitted rfl h₅,patient_same rfl⟩,
    ⟨⟨h.owner,h.idle⟩,rfl,rfl,rfl,?_,rfl,rfl,rfl,rfl⟩⟩
  change (Function.update (Function.update s.conns s.accepted (client bytes)) s.accepted
    { client bytes with input := rest } s.accepted).outcomes = _
  rw [Function.update_self]
  rfl

theorem request_fetched (fs : FileSystem) (inputs : Nat → Stream' Received) (h : Quiet s) {w : W}
    (hw : s.worker w = .idle) (hsome : s.monitor.shared.empty = false) {job : Job} {b : Buffer Job}
    (hget : bufferGet Job.filesize s.monitor.shared = .done (job,b)) :
    ∃ s', PatientReaches fs inputs s s' ∧ Fetched s w job b s' := by
  have hbody : (bufferMonitor Job.filesize).body .get s.monitor.shared = some (.got job,b) := by
    simp [bufferMonitor,hget,Exec.result]
  obtain ⟨m₁,m₂,m₃,m₄,h₁,h₂,h₃,h₄,h₅⟩ := goes_through (t := some w) h.owner h.idle hsome hbody
  have p₁ : PatientReaches fs inputs s { s.work w .getting with monitor := m₁ } :=
    .single ⟨.fetch hw h₁,patient_work rfl (by simp)⟩
  have p₂ := p₁.trans (passes_monitor h₂ h₃ h₄)
  refine ⟨_,p₂.tail ⟨.fetched (Function.update_self _ _ _) h₅,patient_work rfl (by simp)⟩,
    ⟨⟨h.owner,h.idle⟩,rfl,rfl,rfl,rfl,rfl,?_,rfl,rfl⟩⟩
  exact Function.update_idem _ _ _

end Handover

section Example

/-! Clients that all ask for the same file. -/

def pageFs : FileSystem := ⟨fun _ => some ⟨0o100600,1⟩,fun _ => some [88],fun _ _ => none⟩

def pageBytes : List UInt8 := ascii "GET / HTTP/1.0\r\n\r\n"

theorem pageBytes_proper : Proper pageBytes (ascii "GET") (ascii "/") := by
  have ht : takeLine (MAXBUF-1) pageBytes = ascii "GET / HTTP/1.0\r\n" := by decide
  have hl : takeLine (MAXBUF-1) (ascii "\r\n") = crlf := by decide
  refine ⟨⟨ascii " / HTTP/1.0\r\n",ascii " HTTP/1.0\r\n",ascii "HTTP/1.0",ascii "\r\n",?_⟩,?_,?_⟩
  · rw [ht]
    decide
  · rw [ht,show pageBytes.drop _ = ascii "\r\n" from rfl,pieces_cons (by decide),hl]
    exact List.mem_cons_self
  · decide

def pageRequest (fd : Nat) : Request := ⟨fd,ascii "./index.html",[],true,1⟩

def pageJob (fd c : Nat) : Job := ⟨pageRequest fd,c⟩

theorem outcome_page (fd : Nat) :
    outcome pageFs fd (ascii "GET") (ascii "/") = .ok (pageRequest fd) := rfl

def pageInputs : Nat → Stream' Received := fun _ => fromClient pageBytes

theorem page_queued {W : Type} [DecidableEq W] {s : Process W} (h : Quiet s)
    (ha : s.acceptor = .accepting) (hroom : s.monitor.shared.full = false) {fd : Nat}
    (hfd : s.fds fd = none) :
    ∃ s', PatientReaches pageFs pageInputs s s' ∧ Queued s fd (pageRequest fd) s' :=
  request_queued h ha hroom hfd rfl pageBytes_proper (outcome_page fd)

variable (malloced : Int → Job) (boot : Boot)

/-- The first of two workers has the file open on 5 for the connection on 4,
the request of the one on 6 waits, and the one on 7 is new. -/
structure Busy (s : Process (Fin 2)) : Prop where
  quiet : Quiet s
  acceptor : s.acceptor = .parsing 7 2
  fds : s.fds = Function.update (Function.update (Function.update (Function.update boot.fds
    4 (some (.conn 0))) 5 (some .file)) 6 (some (.conn 1))) 7 (some (.conn 2))
  mapped : s.worker 0 = .mapped (pageJob 4 0) 5 [88]
  shared : s.monitor.shared = ⟨Function.update (Function.update malloced 0 (pageJob 4 0)) 1
    (pageJob 6 1),2,1,1,0,.fifo⟩

theorem busy_reached (hfree : ∀ fd, 4 ≤ fd → boot.fds fd = none) :
    ∃ s, Reaches pageFs pageInputs
      (Process.start (Fin 2) boot ⟨malloced,2,0,0,0,.fifo⟩) s ∧ Busy malloced boot s := by
  obtain ⟨s₁,p₁,h₁⟩ := page_queued (s := Process.start (Fin 2) boot ⟨malloced,2,0,0,0,.fifo⟩)
    ⟨rfl,fun _ => rfl⟩ rfl rfl (hfree 4 (by decide))
  have hget : bufferGet Job.filesize s₁.monitor.shared = .done (pageJob 4 0,
      ⟨Function.update malloced 0 (pageJob 4 0),2,0,1,1,.fifo⟩) := by
    rw [h₁.shared]
    rfl
  obtain ⟨s₂,p₂,h₂⟩ := request_fetched pageFs pageInputs (w := 0) h₁.quiet (by rw [h₁.worker]; rfl)
    (by rw [h₁.shared]; rfl) hget
  have hw : s₂.worker 0 = .serving (pageJob 4 0) := by rw [h₂.worker,Function.update_self]
  have h5 : s₂.fds 5 = none := by
    rw [h₂.fds,h₁.fds,Function.update_of_ne (by decide)]
    exact hfree 5 (by decide)
  have hmap : mmapOrDie [88] (pageRequest 4).filesize = .done [88] := by decide
  obtain ⟨s₃,p₃,hfds₃,hshared₃,hacceptor₃,haccepted₃,hw₃,hquiet₃⟩ : ∃ s₃,
      PatientReaches pageFs pageInputs s₂ s₃ ∧ s₃.fds = Function.update s₂.fds 5 (some .file) ∧
      s₃.monitor.shared = s₂.monitor.shared ∧ s₃.acceptor = s₂.acceptor ∧
      s₃.accepted = s₂.accepted ∧ s₃.worker 0 = .mapped (pageJob 4 0) 5 [88] ∧ Quiet s₃ :=
    ⟨_,.single ⟨.openFile hw rfl h5 rfl hmap,patient_work rfl (by simp)⟩,rfl,rfl,rfl,rfl,
      by simp [Process.work],h₂.quiet.owner,h₂.quiet.idle⟩
  rw [h₂.fds,h₁.fds] at hfds₃
  rw [h₂.shared] at hshared₃
  rw [h₂.accepted,h₁.accepted] at haccepted₃
  have h6 : s₃.fds 6 = none := by
    rw [hfds₃,Function.update_of_ne (by decide),Function.update_of_ne (by decide)]
    exact hfree 6 (by decide)
  obtain ⟨s₄,p₄,h₄⟩ := page_queued hquiet₃ (hacceptor₃.trans (h₂.acceptor.trans h₁.acceptor))
    (by rw [hshared₃]; rfl) h6
  have hfds : s₄.fds = Function.update (Function.update (Function.update boot.fds
      4 (some (.conn 0))) 5 (some .file)) 6 (some (.conn 1)) := by
    rw [h₄.fds,hfds₃,haccepted₃]
    rfl
  have haccepted : s₄.accepted = 2 := by
    rw [h₄.accepted,haccepted₃]
    rfl
  have h7 : s₄.fds 7 = none := by
    rw [hfds,Function.update_of_ne (by decide),Function.update_of_ne (by decide),
      Function.update_of_ne (by decide)]
    exact hfree 7 (by decide)
  have p₅ := (reaches_of_patient (((p₁.trans p₂).trans p₃).trans p₄)).tail
    (.accept 7 h₄.acceptor h7)
  refine ⟨_,p₅,⟨h₄.quiet.owner,h₄.quiet.idle⟩,by rw [haccepted],?_,?_,?_⟩
  · change Function.update s₄.fds 7 (some (.conn s₄.accepted)) = _
    rw [hfds,haccepted]
  · change s₄.worker 0 = _
    rw [h₄.worker,hw₃]
  · change s₄.monitor.shared = _
    rw [h₄.shared,hshared₃,haccepted₃]
    have htail : (int (1+1)).tmod 2 = 0 := by decide
    exact congrArg (fun t => (⟨Function.update (Function.update malloced 0 (pageJob 4 0)) 1
      (pageJob 6 1),2,1,1,t,.fifo⟩ : Buffer Job)) htail

/-- The worker serves the first connection, the request of the second has been
moved up, and that of the third is stored below the array. -/
structure Overflowed (s : Process (Fin 1)) : Prop where
  quiet : Quiet s
  acceptor : s.acceptor = .accepting
  fds : s.fds = Function.update (Function.update (Function.update boot.fds
    4 (some (.conn 0))) 5 (some (.conn 1))) 6 (some (.conn 2))
  worker : s.worker 0 = .serving (pageJob 4 0)
  shared : s.monitor.shared = oneLost malloced (pageJob 4 0) (pageJob 5 1) (pageJob 6 2)

theorem overflow_reached (hfree : ∀ fd, 4 ≤ fd → boot.fds fd = none) :
    ∃ s, Reaches pageFs pageInputs
      (Process.start (Fin 1) boot (noneWaits malloced)) s ∧ Overflowed malloced boot s := by
  obtain ⟨s₁,p₁,h₁⟩ := page_queued (s := Process.start (Fin 1) boot (noneWaits malloced))
    ⟨rfl,fun _ => rfl⟩ rfl (show (0 == maxCapacity) = false by decide) (hfree 4 (by decide))
  have hshared₁ : s₁.monitor.shared = oneWaits malloced (pageJob 4 0) :=
    h₁.shared.trans (put_first malloced (pageJob 4 0))
  have h5 : s₁.fds 5 = none := by
    rw [h₁.fds,Function.update_of_ne (by decide)]
    exact hfree 5 (by decide)
  obtain ⟨s₂,p₂,h₂⟩ := page_queued h₁.quiet h₁.acceptor
    (by rw [hshared₁]; exact show (1 == maxCapacity) = false by decide) h5
  have hshared₂ : s₂.monitor.shared = twoWait malloced (pageJob 4 0) (pageJob 5 1) := by
    rw [h₂.shared,h₁.accepted,hshared₁]
    exact put_second malloced (pageJob 4 0) (pageJob 5 1)
  obtain ⟨s₃,p₃,h₃⟩ := request_fetched pageFs pageInputs (w := 0) h₂.quiet
    (by rw [h₂.worker,h₁.worker]; rfl) (by rw [hshared₂]; rfl)
    (by rw [hshared₂]; exact get_wraps malloced (le_refl _))
  have hfds : s₃.fds = Function.update (Function.update boot.fds 4 (some (.conn 0)))
      5 (some (.conn 1)) := by
    rw [h₃.fds,h₂.fds,h₁.accepted,h₁.fds]
    rfl
  have haccepted : s₃.accepted = 2 := by
    rw [h₃.accepted,h₂.accepted,h₁.accepted]
    rfl
  have h6 : s₃.fds 6 = none := by
    rw [hfds,Function.update_of_ne (by decide),Function.update_of_ne (by decide)]
    exact hfree 6 (by decide)
  obtain ⟨s₄,p₄,h₄⟩ := page_queued h₃.quiet (h₃.acceptor.trans h₂.acceptor)
    (by rw [h₃.shared]; exact show (1 == maxCapacity) = false by decide) h6
  refine ⟨s₄,reaches_of_patient (((p₁.trans p₂).trans p₃).trans p₄),h₄.quiet,h₄.acceptor,?_,?_,?_⟩
  · rw [h₄.fds,haccepted,hfds]
  · rw [h₄.worker,h₃.worker]
    exact Function.update_self _ _ _
  · rw [h₄.shared,haccepted,h₃.shared]
    exact put_third malloced (pageJob 4 0) (pageJob 5 1) (pageJob 6 2)

end Example

end ConcurrentWebServer.Server
