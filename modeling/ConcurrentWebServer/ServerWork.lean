import ConcurrentWebServer.MonitorProgress
import ConcurrentWebServer.SequentialRefinement
set_option autoImplicit false

/-!
How much the server still has to do for the connections it has accepted. Every
step lowers it, but for those that bring new work: an `accept`, and a wakeup
that nobody signalled.
-/

namespace ConcurrentWebServer.Server
open Execution MesaMonitor Queueing Requests

section Threads

def calls {W : Type} : Option W → Op Job → Prop
  | none,.put _ | some _,.get => True
  | none,.get | some _,.put _ => False

def returns {W : Type} : Option W → Done Job → Prop
  | none,.put _ | some _,.got _ => True
  | none,.got _ | some _,.put _ => False

theorem body_returns {W : Type} {t : Option W} {op : Op Job} {b b' : Buffer Job} {r : Done Job}
    (h : calls t op) (hr : (bufferMonitor Job.filesize).body op b = some (r,b')) :
    returns t r := by
  cases op with
  | put job =>
    simp only [bufferMonitor,Option.some.injEq,Prod.mk.injEq] at hr
    obtain ⟨rfl,rfl⟩ := hr
    cases t with
    | none => trivial
    | some w => exact h.elim
  | get =>
    obtain ⟨p,_,hp⟩ := Option.map_eq_some_iff.mp hr
    cases hp
    cases t with
    | none => exact h.elim
    | some w => trivial

variable {W : Type} {fs : FileSystem} {inputs : Nat → Stream' Received} {s s' : Process W}

/-- In its calls of the buffer, a thread is in the monitor, and with an
operation of its own. -/
structure Engaged (s : Process W) : Prop where
  acceptor : s.acceptor = .putting → s.monitor.pc main ≠ .idle
  worker (w : W) : s.worker w = .getting → s.monitor.pc (some w) ≠ .idle
  within (t : Option W) : (s.monitor.pc t).Within (calls t) (returns t)

variable [DecidableEq W]

theorem Engaged.work (h : Engaged s) {w : W} {p : WorkerPc} (hp : p ≠ .getting)
    (ha : s'.acceptor = s.acceptor) (hm : s'.monitor = s.monitor)
    (hs : s'.worker = Function.update s.worker w p) : Engaged s' := by
  refine ⟨by rw [ha,hm]; exact h.acceptor,fun u hu => ?_,by rw [hm]; exact h.within⟩
  rw [hs] at hu
  rw [hm]
  by_cases he : u = w
  · subst he
    rw [Function.update_self] at hu
    exact absurd hu hp
  · rw [Function.update_of_ne he] at hu
    exact h.worker u hu

omit [DecidableEq W] in
theorem Engaged.accept (h : Engaged s) (hp : s'.acceptor ≠ .putting)
    (hm : s'.monitor = s.monitor) (hw : s'.worker = s.worker) : Engaged s' :=
  ⟨fun ha => absurd ha hp,by rw [hm,hw]; exact h.worker,by rw [hm]; exact h.within⟩

theorem engaged_step (h : Engaged s) (hl : Step fs inputs s s') : Engaged s' := by
  have hwithin := @within_step (Option W) (Buffer Job) (Op Job) (Done Job) Cond _
    (bufferMonitor Job.filesize) calls returns fun _ _ _ _ _ => body_returns
  cases hl with
  | accept fd _ _ => exact h.accept (by simp) rfl rfl
  | refuse _ _ _ => exact h.accept (by simp) rfl rfl
  | approve _ _ _ => exact h.accept (by simp) rfl rfl
  | page _ _ _ => exact h.accept (by simp) rfl rfl
  | reject _ _ _ => exact h.accept (by simp) rfl rfl
  | @submit job m _ hm =>
    refine ⟨fun _ => hm.called,fun w hw => hm.busy (h.worker w hw) (by simp),hwithin ?_ h.within hm⟩
    intro t op hop
    cases hop
    trivial
  | submitted _ hm =>
    exact ⟨fun ha => (by cases ha),fun w hw => hm.busy (h.worker w hw) (by simp [main]),
      hwithin (by simp) h.within hm⟩
  | internal hm =>
    exact ⟨fun ha => hm.busy (h.acceptor ha) (by simp),
      fun w hw => hm.busy (h.worker w hw) (by simp),hwithin (by simp) h.within hm⟩
  | @fetch w m _ hm =>
    refine ⟨fun ha => hm.busy (h.acceptor ha) (by simp),fun u hu => ?_,hwithin ?_ h.within hm⟩
    · by_cases he : u = w
      · subst he
        exact hm.called
      · exact hm.busy (h.worker u ((Function.update_of_ne he _ _).symm.trans hu)) (by simp)
    · intro t op hop
      cases hop
      trivial
  | @fetched w job m _ hm =>
    refine ⟨fun ha => hm.busy (h.acceptor ha) (by simp [main]),fun u hu => ?_,
      hwithin (by simp) h.within hm⟩
    by_cases he : u = w
    · subst he
      have hself := (Function.update_self _ _ _).symm.trans hu
      cases hself
    · exact hm.busy (h.worker u ((Function.update_of_ne he _ _).symm.trans hu))
        (by simp [Ne.symm he])
  | openFile _ _ _ _ _ => exact h.work (by simp) rfl rfl rfl
  | closeFile _ _ => exact h.work (by simp) rfl rfl rfl
  | header _ _ _ => exact h.work (by simp) rfl rfl rfl
  | body _ _ _ => exact h.work (by simp) rfl rfl rfl
  | status _ _ _ _ => exact h.work (by simp) rfl rfl rfl
  | fork _ _ => exact h.work (by simp) rfl rfl rfl
  | childWrite _ _ _ _ => exact ⟨h.acceptor,h.worker,h.within⟩
  | childExit _ _ _ => exact ⟨h.acceptor,h.worker,h.within⟩
  | wait _ _ _ => exact h.work (by simp) rfl rfl rfl
  | close _ _ _ => exact h.work (by simp) rfl rfl rfl

theorem reaches_engaged {boot : Boot} {b : Buffer Job}
    (h : Reaches fs inputs (Process.start W boot b) s) : Engaged s := by
  induction h with
  | refl => exact ⟨by simp [Process.start],by simp [Process.start],fun _ => trivial⟩
  | tail _ hl ih => exact engaged_step ih hl

end Threads

section StepsLeft

variable (fs : FileSystem) (method uri : Nat → List UInt8)

def outputLength (req : Request) : Nat := ((fs.execve req.filename req.cgiargs).getD []).length

def Job.stepsLeft (job : Job) : Nat := outputLength fs job.req+14

def AcceptorPc.stepsLeft : AcceptorPc → Nat
  | .accepting | .putting => 0
  | .closing _ _ => 1
  | .refusing _ _ _ => 2
  | .submitting job => job.stepsLeft fs+8
  | .parsing fd c =>
      match outcome fs fd (method c) (uri c) with
      | .ok req => outputLength fs req+23
      | .error _ => 3

def WorkerPc.stepsLeft : WorkerPc → Nat
  | .getting => 0
  | .idle => 8
  | .closing _ => 9
  | .body _ _ | .waiting _ => 10
  | .header _ _ => 11
  | .mapped _ _ _ => 12
  | .forking job => outputLength fs job.req+13
  | .serving job => job.stepsLeft fs

def Child.stepsLeft (k : Child) : Nat := k.output.length + if k.exited then 1 else 2

variable {W : Type} [Fintype W]

/-- No run that brings no new work is longer than this. -/
def Process.stepsLeft (s : Process W) : Nat :=
  s.acceptor.stepsLeft fs method uri + s.monitor.rank + (s.flying.map (Job.stepsLeft fs)).sum +
    ∑ w, (s.worker w).stepsLeft fs + (s.children.map Child.stepsLeft).sum

end StepsLeft

section Working

variable {W : Type} [DecidableEq W] {fs : FileSystem} {inputs : Nat → Stream' Received}
  {bytes method uri : Nat → List UInt8} {s s' : Process W}

def WakesUp (s s' : Process W) : Prop :=
  ∃ t op, s.monitor.pc t = .wait op ∧
    s' = { s with monitor := s.monitor.goto t (.woken op) }

structure Working (fs : FileSystem) (inputs : Nat → Stream' Received) (s s' : Process W) :
    Prop where
  step : Step fs inputs s s'
  accepted : s'.accepted = s.accepted
  awake : ¬ WakesUp s s'
  changed : s' ≠ s

variable [Fintype W]

omit [DecidableEq W] in
theorem acceptor_less (hm : s'.monitor = s.monitor) (hw : s'.worker = s.worker)
    (hk : s'.children = s.children)
    (h : s'.acceptor.stepsLeft fs method uri < s.acceptor.stepsLeft fs method uri) :
    s'.stepsLeft fs method uri < s.stepsLeft fs method uri := by
  simp only [Process.stepsLeft,Process.flying,hm,hw,hk]
  omega

theorem worker_less {w : W} {p q : WorkerPc} (hp : s.worker w = p)
    (hw : s'.worker = Function.update s.worker w q) (ha : s'.acceptor = s.acceptor)
    (hm : s'.monitor = s.monitor)
    (h : q.stepsLeft fs + (s'.children.map Child.stepsLeft).sum <
      p.stepsLeft fs + (s.children.map Child.stepsLeft).sum) :
    s'.stepsLeft fs method uri < s.stepsLeft fs method uri := by
  have hsum := sum_update (WorkerPc.stepsLeft fs) s.worker w q
  rw [hp] at hsum
  simp only [Process.stepsLeft,Process.flying,ha,hm,hw]
  omega

theorem worker_alone {w : W} {p q : WorkerPc} (hp : s.worker w = p)
    (hw : s'.worker = Function.update s.worker w q) (ha : s'.acceptor = s.acceptor)
    (hm : s'.monitor = s.monitor) (hk : s'.children = s.children)
    (h : q.stepsLeft fs < p.stepsLeft fs) :
    s'.stepsLeft fs method uri < s.stepsLeft fs method uri :=
  worker_less hp hw ha hm (by rw [hk]; omega)

omit [DecidableEq W] in
theorem children_less (ha : s'.acceptor = s.acceptor) (hm : s'.monitor = s.monitor)
    (hw : s'.worker = s.worker)
    (h : (s'.children.map Child.stepsLeft).sum < (s.children.map Child.stepsLeft).sum) :
    s'.stepsLeft fs method uri < s.stepsLeft fs method uri := by
  simp only [Process.stepsLeft,Process.flying,ha,hm,hw]
  omega

theorem flying_sum (g : Job → Nat) (hwf : s.monitor.shared.Sound)
    (hr : Ready (bufferMonitor Job.filesize) s.monitor)
    {l : Label (Option W) (Op Job) (Done Job)}
    {m : State (Option W) (Buffer Job) (Op Job) (Done Job)}
    (hl : MesaMonitor.Step (bufferMonitor Job.filesize) s.monitor l m) :
    ((flight.total m).map g).sum + ((flight.out l).map g).sum =
      (s.flying.map g).sum + ((flight.into l).map g).sum := by
  rw [← Multiset.sum_add,← Multiset.sum_add,← Multiset.map_add,← Multiset.map_add,
    flight.total_step flight_conserved hwf hr hl]
  rfl

/-- A thread goes on in the buffer, and what it brings along is not more than
what it leaves. -/
theorem monitor_less (hwf : s.monitor.shared.Sound)
    (hr : Ready (bufferMonitor Job.filesize) s.monitor)
    {l : Label (Option W) (Op Job) (Done Job)}
    (hl : MesaMonitor.Step (bufferMonitor Job.filesize) s.monitor l s'.monitor)
    (hs : l = .tau → ¬ Spurious s.monitor s'.monitor) (hk : s'.children = s.children)
    (h : ∀ n n', RankChange l n n' →
      s'.acceptor.stepsLeft fs method uri + n' + ((flight.into l).map (Job.stepsLeft fs)).sum +
          ∑ w, (s'.worker w).stepsLeft fs <
        s.acceptor.stepsLeft fs method uri + n + ((flight.out l).map (Job.stepsLeft fs)).sum +
          ∑ w, (s.worker w).stepsLeft fs) :
    s'.stepsLeft fs method uri < s.stepsLeft fs method uri := by
  have hflying := flying_sum (Job.stepsLeft fs) hwf hr hl
  have hrank := h _ _ (rank_step hl hs)
  simp only [Process.stepsLeft,hk]
  change _ + _ + ((flight.total s'.monitor).map _).sum + _ + _ < _
  omega

theorem children_sum (left right : List Child) (k : Child) :
    ((left ++ k :: right).map Child.stepsLeft).sum =
      (left.map Child.stepsLeft).sum + k.stepsLeft + (right.map Child.stepsLeft).sum := by
  simp [add_assoc]

theorem working_less (hp : ∀ c, Proper (bytes c) (method c) (uri c)) (ho : Owned s)
    (hreply : Replying fs bytes uri s) (hwf : s.monitor.shared.Sound)
    (hr : Ready (bufferMonitor Job.filesize) s.monitor) (h : Working fs inputs s s') :
    s'.stepsLeft fs method uri < s.stepsLeft fs method uri := by
  obtain ⟨hl,hacc,hawake,hne⟩ := h
  -- the verdict of `request_parse` is the one that the work was counted for
  have hparse : ∀ {fd c i : Nat} {f : Frame} {v : Except ErrorPage Request} {conn : Conn},
      s.acceptor = .parsing fd c → s.fds fd = some (.conn i) →
      Decides fs f fd (s.conns i) v conn → outcome fs fd (method c) (uri c) = v := by
    intro fd c i f v conn ha hi hd
    obtain ⟨R,hR,_⟩ := roles_of_acceptor s
    rw [ha] at hR
    have hc := ho.denotes hR hi
    subst hc
    have hclient := (hreply.roles _ (roles_head hR)).parsing rfl
    rw [show s.conns i = client (bytes i) from hclient] at hd
    exact ((hp i).decided hd).1.symm
  cases hl with
  | accept fd _ _ => simp at hacc
  | refuse ha hi hd =>
    refine acceptor_less rfl rfl rfl ?_
    simp [ha,AcceptorPc.stepsLeft,hparse ha hi hd]
  | approve ha hi hd =>
    refine acceptor_less rfl rfl rfl ?_
    simp [ha,AcceptorPc.stepsLeft,Job.stepsLeft,hparse ha hi hd]
  | page ha _ _ => exact acceptor_less rfl rfl rfl (by simp [ha,AcceptorPc.stepsLeft])
  | reject ha _ _ => exact acceptor_less rfl rfl rfl (by simp [ha,AcceptorPc.stepsLeft])
  | submit ha hm =>
    refine monitor_less hwf hr hm (by simp) rfl fun n n' hn => ?_
    simp only [RankChange] at hn
    simp only [ha,AcceptorPc.stepsLeft,Weights.into,Weights.out,flight]
    simp
    omega
  | submitted ha hm =>
    refine monitor_less hwf hr hm (by simp) rfl fun n n' hn => ?_
    simp only [RankChange] at hn
    simp only [ha,AcceptorPc.stepsLeft,Weights.into,Weights.out,flight]
    simp
    omega
  | @internal m hm =>
    refine monitor_less hwf hr hm (fun _ hw => hawake ?_) rfl fun n n' hn => ?_
    · obtain ⟨t,op,ht,he⟩ := hw
      refine ⟨t,op,ht,?_⟩
      rw [← he]
    · simp only [RankChange] at hn
      simp only [Weights.into,Weights.out]
      omega
  | @fetch w m hw hm =>
    refine monitor_less hwf hr hm (by simp) rfl fun n n' hn => ?_
    have hsum := sum_update (WorkerPc.stepsLeft fs) s.worker w .getting
    rw [hw] at hsum
    change ∑ u, (Function.update s.worker w .getting u).stepsLeft fs + 8 = _ + 0 at hsum
    change s.acceptor.stepsLeft fs method uri + n' + 0 +
      ∑ u, (Function.update s.worker w .getting u).stepsLeft fs < _ + n + 0 + _
    simp only [RankChange] at hn
    omega
  | @fetched w job m hw hm =>
    refine monitor_less hwf hr hm (by simp) rfl fun n n' hn => ?_
    have hsum := sum_update (WorkerPc.stepsLeft fs) s.worker w (.serving job)
    rw [hw] at hsum
    change ∑ u, (Function.update s.worker w (.serving job) u).stepsLeft fs + 0 =
      _ + job.stepsLeft fs at hsum
    change s.acceptor.stepsLeft fs method uri + n' + 0 +
      ∑ u, (Function.update s.worker w (.serving job) u).stepsLeft fs <
        _ + n + (job.stepsLeft fs + 0) + _
    simp only [RankChange] at hn
    omega
  | openFile hw _ _ _ _ =>
    exact worker_alone hw rfl rfl rfl rfl (by simp only [WorkerPc.stepsLeft,Job.stepsLeft]; omega)
  | closeFile hw _ => exact worker_alone hw rfl rfl rfl rfl (by simp [WorkerPc.stepsLeft])
  | header hw _ _ => exact worker_alone hw rfl rfl rfl rfl (by simp [WorkerPc.stepsLeft])
  | body hw _ _ => exact worker_alone hw rfl rfl rfl rfl (by simp [WorkerPc.stepsLeft])
  | status hw _ _ _ =>
    exact worker_alone hw rfl rfl rfl rfl (by simp [WorkerPc.stepsLeft,Job.stepsLeft])
  | @fork w job output hw hx =>
    refine worker_less (q := .waiting job) hw rfl rfl rfl ?_
    have hlen : outputLength fs job.req = output.length := by simp [outputLength,hx]
    simp only [WorkerPc.stepsLeft,hlen,List.map_append,List.map_singleton,List.sum_append,
      List.sum_singleton,Child.stepsLeft]
    simp
    omega
  | @childWrite left right child chunk rest i hch _ hout _ =>
    refine children_less rfl rfl rfl ?_
    have hchunk : chunk ≠ [] := by
      intro he
      subst he
      apply hne
      rw [List.nil_append] at hout
      subst hout
      simp [Process.touch,← hch]
    have hpos := List.length_pos_iff.mpr hchunk
    simp only [hch,children_sum,Child.stepsLeft,hout,List.length_append]
    omega
  | childExit hch hex hout =>
    refine children_less rfl rfl rfl ?_
    simp [hch,Child.stepsLeft,hex,hout]
  | wait hw hch hex =>
    refine worker_less hw rfl rfl rfl ?_
    rw [hch,children_sum]
    simp only [WorkerPc.stepsLeft,List.map_append,List.sum_append]
    omega
  | close hw _ _ => exact worker_alone hw rfl rfl rfl rfl (by simp [WorkerPc.stepsLeft])

end Working

end ConcurrentWebServer.Server
