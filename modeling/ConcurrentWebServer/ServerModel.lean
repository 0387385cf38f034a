import ConcurrentWebServer.BufferOperations
import ConcurrentWebServer.RequestOutcomes
import Mathlib.Data.Multiset.AddSub
set_option autoImplicit false

/-!
wserver.c: one acceptor, the workers of a type `W`, the shared buffer between
them, and the CGI children. Every descriptor is looked up in the table of the
process at the moment it is used.
-/

namespace ConcurrentWebServer.Server
open Execution MesaMonitor Queueing Requests

/-- A request on its way, with a ghost: the number of its connection. -/
structure Job where
  req : Request
  conn : Nat
  deriving DecidableEq

def Job.filesize (job : Job) : Int := job.req.filesize

/-- What a descriptor stands for: a connection, by its number in the order of
`accept`, or anything else. -/
inductive Descriptor where
  | conn : Nat → Descriptor
  | file : Descriptor
  deriving DecidableEq

abbrev Descriptors := Nat → Option Descriptor

/-- Where the loop in `main` is. The first number is the `conn_fd`, the second
the connection that was accepted on it. -/
inductive AcceptorPc where
  | accepting : AcceptorPc
  | parsing : Nat → Nat → AcceptorPc
  | refusing : Nat → Nat → ErrorPage → AcceptorPc
  | closing : Nat → Nat → AcceptorPc
  | submitting : Job → AcceptorPc
  | putting : AcceptorPc

/-- Where the loop in `worker_fn` is; the lists are what `srcp` points to. -/
inductive WorkerPc where
  | idle : WorkerPc
  | getting : WorkerPc
  | serving : Job → WorkerPc
  | mapped : Job → Nat → List UInt8 → WorkerPc
  | header : Job → List UInt8 → WorkerPc
  | body : Job → List UInt8 → WorkerPc
  | forking : Job → WorkerPc
  | waiting : Job → WorkerPc
  | closing : Job → WorkerPc

/-- A CGI child, with its copy of the table, what its program has yet to write,
and the connection it was forked for, as a ghost. -/
structure Child where
  conn : Nat
  fds : Descriptors
  output : List UInt8
  exited : Bool

def STDOUT_FILENO : Nat := 1

def dup2 (fds : Descriptors) (oldfd newfd : Nat) : Descriptors :=
  Function.update fds newfd (fds oldfd)

@[simp] theorem dup2_self (fds : Descriptors) (oldfd newfd : Nat) :
    dup2 fds oldfd newfd newfd = fds oldfd := Function.update_self _ _ _

/-- The last three fields are ghosts: the connections that `request_parse`
returned `-1` for, those that a worker dequeued, and those that were closed,
by a worker or else by the acceptor. -/
structure Process (W : Type) where
  fds : Descriptors
  conns : Nat → Conn
  accepted : Nat
  monitor : State (Option W) (Buffer Job) (Op Job) (Done Job)
  acceptor : AcceptorPc
  worker : W → WorkerPc
  children : List Child
  refused : Multiset Nat
  taken : Multiset (Nat × W)
  closed : Multiset (Nat × Option W)

def main {W : Type} : Option W := none

structure Boot where
  fds : Descriptors
  clear : ∀ fd c, fds fd ≠ some (.conn c)

def Process.start (W : Type) (boot : Boot) (b : Buffer Job) : Process W where
  fds := boot.fds
  conns := fun _ => Conn.fresh (Stream'.const .eof) (Stream'.const .all)
  accepted := 0
  monitor := MesaMonitor.start (Option W) (Op Job) (Done Job) b
  acceptor := .accepting
  worker := fun _ => .idle
  children := []
  refused := 0
  taken := 0
  closed := 0

section Steps

variable {W : Type} [DecidableEq W]

def Process.work (s : Process W) (w : W) (p : WorkerPc) : Process W :=
  { s with worker := Function.update s.worker w p }

def Process.touch (s : Process W) (i : Nat) (conn : Conn) : Process W :=
  { s with conns := Function.update s.conns i conn }

def Process.bind (s : Process W) (fd : Nat) (d : Option Descriptor) : Process W :=
  { s with fds := Function.update s.fds fd d }

/-- One step of one thread or child, with every system call succeeding: a call
that would fail has no step. `inputs c` is what the reads on connection `c`
find, and no write falls short. -/
inductive Step (fs : FileSystem) (inputs : Nat → Stream' Received) :
    Process W → Process W → Prop where
  | accept {s : Process W} (fd : Nat) :
      s.acceptor = .accepting → s.fds fd = none →
      Step fs inputs s
        { (s.bind fd (some (.conn s.accepted))).touch s.accepted
            (Conn.fresh (inputs s.accepted) (Stream'.const .all)) with
          accepted := s.accepted+1
          acceptor := .parsing fd s.accepted }
  | refuse {s : Process W} {fd c i : Nat} {f : Frame} {p : ErrorPage} {conn : Conn} :
      s.acceptor = .parsing fd c → s.fds fd = some (.conn i) →
      Decides fs f fd (s.conns i) (.error p) conn →
      Step fs inputs s
        { s.touch i conn with acceptor := .refusing fd c p, refused := c ::ₘ s.refused }
  | approve {s : Process W} {fd c i : Nat} {f : Frame} {req : Request} {conn : Conn} :
      s.acceptor = .parsing fd c → s.fds fd = some (.conn i) →
      Decides fs f fd (s.conns i) (.ok req) conn →
      Step fs inputs s { s.touch i conn with acceptor := .submitting ⟨req,c⟩ }
  | page {s : Process W} {fd c i : Nat} {p : ErrorPage} {conn : Conn} :
      s.acceptor = .refusing fd c p → s.fds fd = some (.conn i) →
      writeAll (s.conns i) p.chunks = .done conn →
      Step fs inputs s { s.touch i conn with acceptor := .closing fd c }
  | reject {s : Process W} {fd c i : Nat} {conn : Conn} :
      s.acceptor = .closing fd c → s.fds fd = some (.conn i) →
      closeOrDie (s.conns i) = .done conn →
      Step fs inputs s
        { (s.bind fd none).touch i conn with
          acceptor := .accepting
          closed := (i,none) ::ₘ s.closed }
  | submit {s : Process W} {job : Job} {m : State (Option W) (Buffer Job) (Op Job) (Done Job)} :
      s.acceptor = .submitting job →
      MesaMonitor.Step (bufferMonitor Job.filesize) s.monitor (.call main (.put job)) m →
      Step fs inputs s { s with acceptor := .putting, monitor := m }
  | submitted {s : Process W} {job : Job} {m : State (Option W) (Buffer Job) (Op Job) (Done Job)} :
      s.acceptor = .putting →
      MesaMonitor.Step (bufferMonitor Job.filesize) s.monitor (.ret main (.put job)) m →
      Step fs inputs s { s with acceptor := .accepting, monitor := m }
  | internal {s : Process W} {m : State (Option W) (Buffer Job) (Op Job) (Done Job)} :
      MesaMonitor.Step (bufferMonitor Job.filesize) s.monitor .tau m →
      Step fs inputs s { s with monitor := m }
  | fetch {s : Process W} {w : W} {m : State (Option W) (Buffer Job) (Op Job) (Done Job)} :
      s.worker w = .idle →
      MesaMonitor.Step (bufferMonitor Job.filesize) s.monitor (.call (some w) .get) m →
      Step fs inputs s { s.work w .getting with monitor := m }
  | fetched {s : Process W} {w : W} {job : Job}
      {m : State (Option W) (Buffer Job) (Op Job) (Done Job)} :
      s.worker w = .getting →
      MesaMonitor.Step (bufferMonitor Job.filesize) s.monitor (.ret (some w) (.got job)) m →
      Step fs inputs s
        { s.work w (.serving job) with monitor := m, taken := (job.conn,w) ::ₘ s.taken }
  | openFile {s : Process W} {w : W} {job : Job} {srcfd : Nat} {content srcp : List UInt8} :
      s.worker w = .serving job → job.req.isStatic = true → s.fds srcfd = none →
      openOrDie fs job.req.filename = .done content →
      mmapOrDie content job.req.filesize = .done srcp →
      Step fs inputs s ((s.bind srcfd (some .file)).work w (.mapped job srcfd srcp))
  | closeFile {s : Process W} {w : W} {job : Job} {srcfd : Nat} {srcp : List UInt8} :
      s.worker w = .mapped job srcfd srcp → s.fds srcfd ≠ none →
      Step fs inputs s ((s.bind srcfd none).work w (.header job srcp))
  | header {s : Process W} {w : W} {job : Job} {srcp : List UInt8} {i : Nat} {conn : Conn} :
      s.worker w = .header job srcp → s.fds job.req.connFd = some (.conn i) →
      writeOrDie (s.conns i) (staticHeader job.req.filesize
        (requestGetFiletype job.req.filename)) = .done conn →
      Step fs inputs s ((s.touch i conn).work w (.body job srcp))
  | body {s : Process W} {w : W} {job : Job} {srcp : List UInt8} {i : Nat} {conn : Conn} :
      s.worker w = .body job srcp → s.fds job.req.connFd = some (.conn i) →
      writeMapped (s.conns i) srcp job.req.filesize = .done conn →
      Step fs inputs s ((s.touch i conn).work w (.closing job))
  | status {s : Process W} {w : W} {job : Job} {i : Nat} {conn : Conn} :
      s.worker w = .serving job → job.req.isStatic = false →
      s.fds job.req.connFd = some (.conn i) →
      writeOrDie (s.conns i) dynamicHeader = .done conn →
      Step fs inputs s ((s.touch i conn).work w (.forking job))
  | fork {s : Process W} {w : W} {job : Job} {output : List UInt8} :
      s.worker w = .forking job →
      fs.execve job.req.filename job.req.cgiargs = some output →
      Step fs inputs s
        { s.work w (.waiting job) with
          children := s.children ++
            [⟨job.conn,dup2 s.fds job.req.connFd STDOUT_FILENO,output,false⟩] }
  /-- The child writes some more of its output, wherever its standard output goes. -/
  | childWrite {s : Process W} {left right : List Child} {child : Child}
      {chunk rest : List UInt8} {i : Nat} :
      s.children = left ++ child :: right → child.exited = false →
      child.output = chunk ++ rest → child.fds STDOUT_FILENO = some (.conn i) →
      Step fs inputs s
        { s.touch i { s.conns i with sent := (s.conns i).sent ++ chunk } with
          children := left ++ { child with output := rest } :: right }
  | childExit {s : Process W} {left right : List Child} {child : Child} :
      s.children = left ++ child :: right → child.exited = false → child.output = [] →
      Step fs inputs s
        { s with
          children := left ++ { child with exited := true, fds := fun _ => none } :: right }
  /-- `wait(NULL)`: any child that has exited is reaped. -/
  | wait {s : Process W} {w : W} {job : Job} {left right : List Child} {child : Child} :
      s.worker w = .waiting job → s.children = left ++ child :: right → child.exited = true →
      Step fs inputs s { s.work w (.closing job) with children := left ++ right }
  | close {s : Process W} {w : W} {job : Job} {i : Nat} {conn : Conn} :
      s.worker w = .closing job → s.fds job.req.connFd = some (.conn i) →
      closeOrDie (s.conns i) = .done conn →
      Step fs inputs s
        { ((s.bind job.req.connFd none).touch i conn).work w .idle with
          closed := (i,some w) ::ₘ s.closed }

def Reaches (fs : FileSystem) (inputs : Nat → Stream' Received) : Process W → Process W → Prop :=
  Relation.ReflTransGen (Step fs inputs)

end Steps

end ConcurrentWebServer.Server
