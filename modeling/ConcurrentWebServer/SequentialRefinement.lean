import ConcurrentWebServer.ConnectionReplies
set_option autoImplicit false

/-! What each client is sent by the server is what the single-threaded one
would have sent. -/

namespace ConcurrentWebServer.Server
open Execution CStrings MesaMonitor Queueing Requests

section Runs

variable {W : Type} [Fintype W] {fs : FileSystem} {inputs : Nat → Stream' Received}
  {bytes method uri : Nat → List UInt8} {s s' : Process W}

def Attended (s : Process W) : Prop :=
  ∀ k ∈ s.children, k.output ≠ [] → ∃ fd, ⟨fd,k.conn,.waiting⟩ ∈ s.roles

theorem Attended.keep (h : Attended s)
    (hch : ∀ k ∈ s'.children, k.output ≠ [] →
      ∃ k₀ ∈ s.children, k₀.output ≠ [] ∧ k₀.conn = k.conn)
    (hr : ∀ fd c, ⟨fd,c,.waiting⟩ ∈ s.roles → ⟨fd,c,.waiting⟩ ∈ s'.roles) : Attended s' := by
  intro k hm hne
  obtain ⟨k₀,hm₀,hne₀,hc⟩ := hch k hm hne
  obtain ⟨fd,hfd⟩ := h k₀ hm₀ hne₀
  exact ⟨fd,hr _ _ (hc ▸ hfd)⟩

omit [Fintype W] in
theorem same_children (hch : s'.children = s.children) : ∀ k ∈ s'.children, k.output ≠ [] →
    ∃ k₀ ∈ s.children, k₀.output ≠ [] ∧ k₀.conn = k.conn :=
  fun k hm hne => ⟨k,hch ▸ hm,hne,rfl⟩

omit [Fintype W] in
theorem replaced_child {left right : List Child} {k₀ k₁ : Child}
    (hch : s.children = left ++ k₀ :: right) (hch' : s'.children = left ++ k₁ :: right)
    (hc : k₀.conn = k₁.conn) (hout : k₁.output ≠ [] → k₀.output ≠ []) :
    ∀ k ∈ s'.children, k.output ≠ [] →
      ∃ k₀ ∈ s.children, k₀.output ≠ [] ∧ k₀.conn = k.conn := by
  intro k hm hne
  rw [hch',List.mem_append,List.mem_cons] at hm
  rw [hch]
  rcases hm with hm | rfl | hm
  · exact ⟨k,by simp [hm],hne,rfl⟩
  · exact ⟨k₀,by simp,hout hne,hc⟩
  · exact ⟨k,by simp [hm],hne,rfl⟩

theorem role_stays {r₀ r : Role} {R : Multiset Role} (hr : s.roles = r₀ ::ₘ R)
    (hsub : ∀ r ∈ R, r ∈ s'.roles) (hm : r ∈ s.roles) (hne : r ≠ r₀) : r ∈ s'.roles := by
  rw [hr,Multiset.mem_cons] at hm
  exact hsub r (hm.resolve_left hne)

theorem waiting_stays {fd' c' : Nat} {st : Stage} {R : Multiset Role}
    (hr : s.roles = ⟨fd',c',st⟩ ::ₘ R) (hst : st ≠ .waiting) (hsub : ∀ r ∈ R, r ∈ s'.roles)
    (fd c : Nat) (hm : ⟨fd,c,.waiting⟩ ∈ s.roles) : ⟨fd,c,.waiting⟩ ∈ s'.roles := by
  refine role_stays hr hsub hm fun he => ?_
  cases he
  exact hst rfl

theorem attended_change (hk : Offspring s) (h : Attended s) (hpat : Patient s s')
    (hl : Change fs inputs s s') : Attended s' := by
  cases hl with
  | accept _ _ _ _ hr _ _ hch =>
    exact h.keep (same_children hch) fun _ _ hm => by rw [hr]; exact Multiset.mem_cons_of_mem hm
  | advance hr hr' hadv _ _ _ _ hch =>
    refine h.keep (same_children hch) (waiting_stays hr ?_ fun r hm => roles_tail hr' hm)
    rintro rfl
    cases hadv.early
  | quiet hr _ _ _ _ hch => exact h.keep (same_children hch) fun _ _ hm => hr ▸ hm
  | @fork fd c req R child hr hr' _ hc _ _ hch _ _ _ _ =>
    intro k hm hne
    rw [hch,List.mem_append,List.mem_singleton] at hm
    rcases hm with hm | rfl
    · obtain ⟨fd',hfd⟩ := h k hm hne
      exact ⟨fd',waiting_stays hr (by simp) (fun r hm => roles_tail hr' hm) _ _ hfd⟩
    · exact ⟨fd,by rw [hc]; exact roles_head hr'⟩
  | childWrite hch _ hout _ hch' _ hr _ _ _ =>
    refine h.keep (replaced_child hch hch' rfl fun hne => ?_) fun _ _ hm => hr ▸ hm
    rw [hout]
    exact List.append_ne_nil_of_right_ne_nil _ hne
  | childExit hch _ hout hch' _ hr _ _ _ =>
    exact h.keep (replaced_child hch hch' rfl (absurd hout)) fun _ _ hm => hr ▸ hm
  | @wait fd c R left right child w job hr hr' hw hw' hc hch _ hch' _ _ _ _ =>
    intro k hm hne
    have hin : k ∈ s.children := by
      rw [hch',List.mem_append] at hm
      rw [hch,List.mem_append,List.mem_cons]
      exact hm.imp id .inr
    obtain ⟨fd',hfd⟩ := h k hin hne
    refine ⟨fd',role_stays hr (fun r hm => roles_tail hr' hm) hfd fun he => ?_⟩
    -- the worker's own child had exited, and so has nothing left to write
    have hkc : k.conn = job.conn := (congrArg Role.conn he).trans hc.symm
    exact hne (hk.exited hin (hpat w job hw hw' k hin hkc))
  | close who hr hr' _ _ _ _ _ hch =>
    exact h.keep (same_children hch) (waiting_stays hr (by simp) fun r hm => hr' ▸ hm)

variable [DecidableEq W] {capacity : Nat} {policy : SchedPolicy} {malloced : Int → Job}
  {boot : Boot} {b₀ : Buffer Job}

theorem reaches_replying (hc : FitsInt policy capacity)
    (hinit : bufferInit malloced capacity policy = .done b₀)
    (hin : ∀ c, inputs c = fromClient (bytes c)) (hp : ∀ c, Proper (bytes c) (method c) (uri c))
    (h : Reaches fs inputs (Process.start W boot b₀) s) :
    Offspring s ∧ Replying fs bytes uri s := by
  induction h with
  | refl =>
    rw [bufferInit_done malloced hc.pos policy] at hinit
    cases hinit
    have hroles := roles_start (W := W) boot (b := ⟨malloced,capacity,0,0,0,policy⟩) rfl
    refine ⟨⟨by simp [Process.start],by simp [Process.start],by simp [Process.start],
      by simp [Process.start],?_⟩,?_,by simp [Process.start]⟩
    · rw [hroles]
      simp
    · rw [hroles]
      simp
  | tail hs hl ih =>
    have ho := (reaches_owned hc hinit hs).1
    have hch := reaches_change hc hinit hs hl
    exact ⟨offspring_change ho ih.1 hch,replying_change hin hp ho ih.1 ih.2 hch⟩

theorem patient_attended (hc : FitsInt policy capacity)
    (hinit : bufferInit malloced capacity policy = .done b₀)
    (hin : ∀ c, inputs c = fromClient (bytes c)) (hp : ∀ c, Proper (bytes c) (method c) (uri c))
    (h : PatientReaches fs inputs (Process.start W boot b₀) s) :
    Reaches fs inputs (Process.start W boot b₀) s ∧ Attended s := by
  induction h with
  | refl => exact ⟨.refl,by simp [Attended,Process.start]⟩
  | tail _ hl ih =>
    obtain ⟨hs,ha⟩ := ih
    have hk := (reaches_replying hc hinit hin hp hs).1
    exact ⟨hs.tail hl.1,attended_change hk ha hl.2 (reaches_change hc hinit hs hl.1)⟩

/-- On a closed connection, all has been sent unless a child has not written it yet. -/
theorem replies_iff (hc : FitsInt policy capacity)
    (hinit : bufferInit malloced capacity policy = .done b₀)
    (hin : ∀ c, inputs c = fromClient (bytes c)) (hp : ∀ c, Proper (bytes c) (method c) (uri c))
    (h : Reaches fs inputs (Process.start W boot b₀) s) {c : Nat}
    (hm : c ∈ s.closed.map Prod.fst) :
    Replies fs (bytes c) (s.conns c).sent ↔ ∀ k ∈ s.children, k.conn = c → k.output = [] := by
  obtain ⟨_,hreply⟩ := (reaches_replying hc hinit hin hp h).2.closed c hm
  rw [← pending_eq_nil]
  constructor
  · intro hsent
    have he := (hp c).reply_unique hsent hreply
    simpa [Process.total] using he
  · intro hpend
    rwa [Process.total,hpend,List.append_nil] at hreply

end Runs

section Programs

/-! Requests for CGI programs that come one after the other. -/

variable {W : Type} [DecidableEq W] {fs : FileSystem} {inputs : Nat → Stream' Received}
  {s s' : Process W}

structure Calm (s : Process W) : Prop extends Quiet s where
  sound : s.monitor.shared.Sound
  contents : s.monitor.shared.contents = []

theorem get_after_put {b : Buffer Job} (hb : b.Sound) (he : b.contents = []) (job : Job) :
    b.full = false ∧ (bufferPut b job).empty = false ∧
      ∃ b', bufferGet Job.filesize (bufferPut b job) = .done (job,b') ∧ b'.Sound ∧
        b'.contents = [] := by
  have hcount : b.count = 0 := by
    rw [← Buffer.contents_length,he]
    rfl
  have hcap := hb.cap_pos
  have hput := sound_put hb (by omega) job
  have hcontents := contents_put hb.toWellFormed (by omega) job
  obtain ⟨x,b',hget,hsound,_,_,htakes⟩ := bufferGet_takes Job.filesize hput (Nat.succ_pos _)
  have hperm := htakes.perm Job.filesize
  rw [hcontents,he] at hperm
  obtain ⟨rfl,hempty⟩ : x = job ∧ b'.contents = [] := by
    simpa using List.perm_singleton.mp hperm.symm
  refine ⟨?_,by simp [Buffer.empty,bufferPut],b',hget,hsound,hempty⟩
  rw [Buffer.full,hcount,beq_eq_false_iff_ne]
  omega

/-- `s'` is `s` after one more connection, on which worker `w` serves `req`, up
to its wait for the child `k`. -/
structure Started (s : Process W) (w : W) (fd : Nat) (req : Request) (k : Child) (s' : Process W) :
    Prop where
  calm : Calm s'
  acceptor : s'.acceptor = .accepting
  accepted : s'.accepted = s.accepted+1
  fds : s'.fds = Function.update s.fds fd (some (.conn s.accepted))
  worker : s'.worker = Function.update s.worker w (.waiting ⟨req,s.accepted⟩)
  closed : s'.closed = s.closed
  children : s'.children = s.children ++ [k]
  conn : k.conn = s.accepted
  exited : k.exited = false
  stdout : k.fds STDOUT_FILENO = some (.conn s.accepted)

theorem program_started (h : Calm s) (ha : s.acceptor = .accepting) {w : W}
    (hw : s.worker w = .idle) {fd : Nat} (hfd : s.fds fd = none) {bytes method uri : List UInt8}
    (hin : inputs s.accepted = fromClient bytes) (hp : Proper bytes method uri) {req : Request}
    (hv : outcome fs fd method uri = .ok req) (hfdreq : req.connFd = fd)
    (hst : req.isStatic = false) {output : List UInt8}
    (hx : fs.execve req.filename req.cgiargs = some output) :
    ∃ k s', PatientReaches fs inputs s s' ∧ Started s w fd req k s' ∧ k.output = output := by
  obtain ⟨hroom,hsome,b,hget,hsound,hempty⟩ := get_after_put h.sound h.contents ⟨req,s.accepted⟩
  obtain ⟨s₁,p₁,h₁⟩ := request_queued h.toQuiet ha hroom hfd hin hp hv
  rw [← h₁.shared] at hsome hget
  obtain ⟨s₂,p₂,h₂⟩ := request_fetched fs inputs h₁.quiet (h₁.worker ▸ hw) hsome hget
  have hserving : s₂.worker w = .serving ⟨req,s.accepted⟩ := by
    rw [h₂.worker,Function.update_self]
  have hopen : s₂.fds req.connFd = some (.conn s.accepted) := by
    rw [h₂.fds,h₁.fds,hfdreq,Function.update_self]
  have hall : (s₂.conns s.accepted).outcomes = Stream'.const .all := by
    rw [h₂.conns,h₁.outcomes]
  have p₃ := (p₁.trans p₂).tail
    ⟨.status hserving hst hopen (writeOrDie_const hall _),patient_work rfl (by simp)⟩
  have p₄ := p₃.tail ⟨.fork (Function.update_self _ _ _) hx,patient_work rfl (by simp)⟩
  refine ⟨⟨s.accepted,dup2 s₂.fds req.connFd STDOUT_FILENO,output,false⟩,_,p₄,
    ⟨⟨⟨h₂.quiet.owner,h₂.quiet.idle⟩,?_,?_⟩,h₂.acceptor.trans h₁.acceptor,
      h₂.accepted.trans h₁.accepted,h₂.fds.trans h₁.fds,?_,h₂.closed.trans h₁.closed,?_,rfl,rfl,?_⟩,
    rfl⟩
  · exact h₂.shared ▸ hsound
  · exact (congrArg Buffer.contents h₂.shared).trans hempty
  · change Function.update (Function.update s₂.worker w _) w _ = _
    rw [h₂.worker,h₁.worker,Function.update_idem,Function.update_idem]
  · exact congrArg (· ++ _) (h₂.children.trans h₁.children)
  · exact (dup2_self _ _ STDOUT_FILENO).trans hopen

theorem child_exits (fs : FileSystem) (inputs : Nat → Stream' Received) {left right : List Child}
    {k : Child} {j : Nat} (hch : s.children = left ++ k :: right) (hk : k.exited = false)
    (hout : k.fds STDOUT_FILENO = some (.conn j)) :
    ∃ t, PatientReaches fs inputs s t ∧ t.worker = s.worker ∧ t.fds = s.fds ∧
      t.closed = s.closed ∧ (∀ i, (t.conns i).isOpen = (s.conns i).isOpen) ∧
      t.children = left ++ ⟨k.conn,fun _ => none,[],true⟩ :: right := by
  have hwrite : Step fs inputs s
      { s.touch j { s.conns j with sent := (s.conns j).sent ++ k.output } with
        children := left ++ { k with output := [] } :: right } :=
    .childWrite hch hk (List.append_nil _).symm hout
  have hk' : (⟨k.conn,k.fds,[],k.exited⟩ : Child).exited = false := hk
  have hexit : Step fs inputs
      { s.touch j { s.conns j with sent := (s.conns j).sent ++ k.output } with
        children := left ++ { k with output := [] } :: right }
      { s.touch j { s.conns j with sent := (s.conns j).sent ++ k.output } with
        children := left ++ ⟨k.conn,fun _ => none,[],true⟩ :: right } := .childExit rfl hk' rfl
  refine ⟨_,(Relation.ReflTransGen.single ⟨hwrite,patient_same rfl⟩).tail ⟨hexit,patient_same rfl⟩,
    rfl,rfl,rfl,fun i => ?_,rfl⟩
  change (Function.update s.conns j _ i).isOpen = (s.conns i).isOpen
  by_cases he : i = j
  · subst he
    rw [Function.update_self]
  · rw [Function.update_of_ne he]

theorem wait_closes {w : W} {job : Job} {left right : List Child} {k : Child} {i : Nat}
    (hw : s.worker w = .waiting job) (hch : s.children = left ++ k :: right)
    (hk : k.exited = true) (hfd : s.fds job.req.connFd = some (.conn i))
    (hopen : (s.conns i).isOpen = true) :
    ∃ s', Reaches fs inputs s s' ∧
      ((∀ x ∈ left ++ right, x.conn ≠ job.conn) → PatientReaches fs inputs s s') ∧
      s'.closed = (i,some w) ::ₘ s.closed ∧ s'.children = left ++ right := by
  have hwait : Step fs inputs s { s.work w (.closing job) with children := left ++ right } :=
    .wait hw hch hk
  have hdone : closeOrDie (s.conns i) = .done { s.conns i with isOpen := false } := by
    rw [closeOrDie,hopen]
    rfl
  have hclose : Step fs inputs { s.work w (.closing job) with children := left ++ right } _ :=
    .close (Function.update_self _ _ _) hfd hdone
  refine ⟨_,(Relation.ReflTransGen.single hwait).tail hclose,fun hother => ?_,rfl,rfl⟩
  refine (Relation.ReflTransGen.single ⟨hwait,?_⟩).tail ⟨hclose,patient_work rfl (by simp)⟩
  intro u job' hu hu' x hx hxc
  by_cases he : u = w
  · subst he
    have hj : job' = job := by
      have hself := (Function.update_self _ _ _).symm.trans hu'
      cases hself
      rfl
    rw [hj] at hxc
    rw [hch,List.mem_append,List.mem_cons] at hx
    rcases hx with hx | rfl | hx
    · exact absurd hxc (hother x (List.mem_append_left _ hx))
    · exact hk
    · exact absurd hxc (hother x (List.mem_append_right _ hx))
  · have hu'' : s.worker u = .closing job' := (Function.update_of_ne he _ _).symm.trans hu'
    cases hu.symm.trans hu''

theorem child_reaped {w : W} {job : Job} {left right : List Child} {k : Child} {i j : Nat}
    (hw : s.worker w = .waiting job) (hch : s.children = left ++ k :: right)
    (hk : k.exited = false) (hout : k.fds STDOUT_FILENO = some (.conn j))
    (hfd : s.fds job.req.connFd = some (.conn i)) (hopen : (s.conns i).isOpen = true) :
    ∃ s', Reaches fs inputs s s' ∧
      ((∀ x ∈ left ++ right, x.conn ≠ job.conn) → PatientReaches fs inputs s s') ∧
      s'.closed = (i,some w) ::ₘ s.closed ∧ s'.children = left ++ right := by
  obtain ⟨t,ht,htw,htf,htc,hto,htch⟩ := child_exits fs inputs hch hk hout
  obtain ⟨s',hs',hpat,hcl,hch'⟩ := wait_closes (htw ▸ hw) htch rfl (htf ▸ hfd)
    ((hto i).trans hopen)
  exact ⟨s',(reaches_of_patient ht).trans hs',fun hother => ht.trans (hpat hother),
    hcl.trans (by rw [htc]),hch'⟩

end Programs

section Example

/-! Two clients that ask for a program, and two workers. -/

def cgiFs : FileSystem := ⟨fun _ => some ⟨0o100700,1⟩,fun _ => none,fun _ _ => some [88]⟩

def cgiBytes : List UInt8 := ascii "GET /cgi HTTP/1.0\r\n\r\n"

theorem cgiBytes_proper : Proper cgiBytes (ascii "GET") (ascii "/cgi") := by
  have ht : takeLine (MAXBUF-1) cgiBytes = ascii "GET /cgi HTTP/1.0\r\n" := by decide
  have hl : takeLine (MAXBUF-1) (ascii "\r\n") = crlf := by decide
  refine ⟨⟨ascii " /cgi HTTP/1.0\r\n",ascii " HTTP/1.0\r\n",ascii "HTTP/1.0",ascii "\r\n",?_⟩,?_,?_⟩
  · rw [ht]
    decide
  · rw [ht,show cgiBytes.drop _ = ascii "\r\n" from rfl,pieces_cons (by decide),hl]
    exact List.mem_cons_self
  · decide

def cgiRequest (fd : Nat) : Request := ⟨fd,ascii "./cgi",[],false,1⟩

theorem outcome_cgi (fd : Nat) :
    outcome cgiFs fd (ascii "GET") (ascii "/cgi") = .ok (cgiRequest fd) := rfl

def cgiStart : Process (Fin 2) :=
  Process.start (Fin 2) ⟨fun _ => none,by simp⟩ ⟨fun _ => ⟨cgiRequest 0,0⟩,1,0,0,0,.fifo⟩

theorem first_started : ∃ k s, PatientReaches cgiFs (fun _ => fromClient cgiBytes) cgiStart s ∧
    Started cgiStart 0 4 (cgiRequest 4) k s ∧ k.output = [88] := by
  have hcalm : Calm cgiStart :=
    ⟨⟨rfl,fun _ => rfl⟩,sound_init _ (fitsInt_of_le .fifo 1 (by decide) (by decide)),rfl⟩
  exact program_started hcalm rfl rfl rfl rfl cgiBytes_proper (outcome_cgi 4) rfl rfl rfl

theorem Started.waiting {W : Type} [DecidableEq W] {s s' : Process W} {w : W} {fd : Nat}
    {req : Request} {k : Child} (h : Started s w fd req k s') :
    s'.worker w = .waiting ⟨req,s.accepted⟩ := by
  rw [h.worker,Function.update_self]

end Example

section Refinement

variable {W : Type} [Fintype W] [DecidableEq W] {fs : FileSystem}
  {inputs : Nat → Stream' Received} {bytes method uri : Nat → List UInt8} {s : Process W}
  {capacity : Nat} {policy : SchedPolicy} {malloced : Int → Job} {boot : Boot} {b₀ : Buffer Job}

theorem role_of_worker {w : W} {p : WorkerPc} (hw : s.worker w = p) {r : Role} (hr : r ∈ p.roles) :
    r ∈ s.roles := by
  obtain ⟨R,hR,_⟩ := roles_of_worker s w
  rw [hR,hw]
  exact Multiset.mem_add.mpr (.inl hr)

/-- The server refines the single-threaded one. -/
theorem sequential_refinement (hc : FitsInt policy capacity)
    (hinit : bufferInit malloced capacity policy = .done b₀)
    (hin : ∀ c, inputs c = fromClient (bytes c))
    (hp : ∀ c, Proper (bytes c) (method c) (uri c)) :
    (∀ s, PatientReaches fs inputs (Process.start W boot b₀) s →
      ∀ c ∈ s.closed.map Prod.fst,
        Replies fs (bytes c) (s.conns c).sent ∧ (s.conns c).isOpen = false) ∧
    (∀ s, Reaches fs inputs (Process.start W boot b₀) s →
      (∀ c ∈ s.closed.map Prod.fst, (s.conns c).isOpen = false ∧
        (Replies fs (bytes c) (s.conns c).sent ↔
          ∀ k ∈ s.children, k.conn = c → k.output = [])) ∧
      ∀ w job, s.worker w = .serving job ∨ s.worker w = .forking job →
        Vetted fs (uri job.conn) job.req) ∧
    ∀ c out out', Replies fs (bytes c) out → Replies fs (bytes c) out' → out = out' := by
  refine ⟨fun s h c hm => ?_,fun s h => ⟨fun c hm => ⟨?_,replies_iff hc hinit hin hp h hm⟩,
    fun w job hw => ?_⟩,fun c _ _ => (hp c).reply_unique⟩
  · obtain ⟨hs,ha⟩ := patient_attended hc hinit hin hp h
    refine ⟨(replies_iff hc hinit hin hp hs hm).mpr fun k hk hkc => ?_,
      ((reaches_replying hc hinit hin hp hs).2.closed c hm).1⟩
    by_contra hne
    obtain ⟨fd,hrole⟩ := ha k hk hne
    exact (reaches_owned hc hinit hs).1.closed_ne hm hrole hkc.symm
  · exact ((reaches_replying hc hinit hin hp h).2.closed c hm).1
  · have hroles := (reaches_replying hc hinit hin hp h).2.roles
    rcases hw with hw | hw
    · exact (hroles _ (role_of_worker hw (Multiset.mem_singleton_self job.ready))).vetted _ rfl
    · exact (hroles _ (role_of_worker hw
        (Multiset.mem_singleton_self (job.role (.forking job.req))))).vetted _ rfl

theorem sequential_refinement_cgi : ∃ s : Process (Fin 2), (0,some 0) ∈ s.closed ∧
    Replies cgiFs cgiBytes (s.conns 0).sent ∧ (s.conns 0).isOpen = false := by
  have hfits : FitsInt .fifo 1 := fitsInt_of_le .fifo 1 (by decide) (by decide)
  obtain ⟨k,s,hs,h,_⟩ := first_started
  have hr := (reaches_replying hfits rfl (fun _ => rfl) (fun _ => cgiBytes_proper)
    (reaches_of_patient hs)).2
  have hopen := (hr.roles _ (role_of_worker h.waiting (Multiset.mem_singleton_self _))).isOpen
  obtain ⟨s',_,hpat,hcl,_⟩ := child_reaped h.waiting h.children h.exited h.stdout
    (by rw [h.fds]; exact Function.update_self _ _ _) hopen
  have hmem : (0,some 0) ∈ s'.closed := by
    rw [hcl]
    exact Multiset.mem_cons_self _ _
  exact ⟨s',hmem,(sequential_refinement hfits rfl (fun _ => rfl)
    (fun _ => cgiBytes_proper)).1 s' (hs.trans (hpat (by simp [cgiStart,Process.start]))) 0
    (Multiset.mem_map.mpr ⟨_,hmem,rfl⟩)⟩

/-- The worker of the first client reaps the child of the second, and closes
its own connection before its own program has written. -/
theorem reaped_by_another : ∃ s : Process (Fin 2),
    Reaches cgiFs (fun _ => fromClient cgiBytes) cgiStart s ∧
      Proper cgiBytes (ascii "GET") (ascii "/cgi") ∧ (0,some 0) ∈ s.closed ∧
      Replies cgiFs cgiBytes (dynamicHeader ++ [88]) ∧
      ¬ Replies cgiFs cgiBytes (s.conns 0).sent := by
  have hfits : FitsInt .fifo 1 := fitsInt_of_le .fifo 1 (by decide) (by decide)
  obtain ⟨k,s,hs,h,hk⟩ := first_started
  have hidle : s.worker 1 = .idle := by
    rw [h.worker]
    rfl
  have hfree : s.fds 5 = none := by
    rw [h.fds]
    rfl
  obtain ⟨k',s',hs',h',_⟩ : ∃ k' s', PatientReaches cgiFs (fun _ => fromClient cgiBytes) s s' ∧
      Started s 1 5 (cgiRequest 5) k' s' ∧ k'.output = [88] :=
    program_started h.calm h.acceptor hidle hfree rfl cgiBytes_proper (outcome_cgi 5) rfl rfl rfl
  have hreach := (reaches_of_patient hs).trans (reaches_of_patient hs')
  have hwait : s'.worker 0 = .waiting ⟨cgiRequest 4,0⟩ := by
    rw [h'.worker,Function.update_of_ne (by decide)]
    exact h.waiting
  have hfd : s'.fds (cgiRequest 4).connFd = some (.conn 0) := by
    rw [h'.fds,h.fds]
    rfl
  have hr := (reaches_replying hfits rfl (fun _ => rfl) (fun _ => cgiBytes_proper) hreach).2
  have hopen := (hr.roles _ (role_of_worker hwait (Multiset.mem_singleton_self _))).isOpen
  have hchildren : s'.children = [k] ++ k' :: [] := by
    rw [h'.children,h.children]
    rfl
  obtain ⟨t,ht,_,hcl,hch⟩ := child_reaped hwait hchildren h'.exited h'.stdout hfd hopen
  have hmem : (0,some 0) ∈ t.closed := by
    rw [hcl]
    exact Multiset.mem_cons_self _ _
  have hanswer : Answers cgiFs (dynamicHeader ++ [88])
      (outcome cgiFs 4 (ascii "GET") (ascii "/cgi")) := by
    rw [outcome_cgi]
    exact serves_dynamic rfl rfl
  refine ⟨t,hreach.trans ht,cgiBytes_proper,hmem,cgiBytes_proper.replies hanswer,fun hsent => ?_⟩
  have hout := (replies_iff hfits rfl (fun _ => rfl) (fun _ => cgiBytes_proper)
    (hreach.trans ht) (Multiset.mem_map.mpr ⟨_,hmem,rfl⟩)).mp hsent k (by simp [hch]) h.conn
  rw [hk] at hout
  cases hout

end Refinement

end ConcurrentWebServer.Server
