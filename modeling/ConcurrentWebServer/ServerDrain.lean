import ConcurrentWebServer.DescriptorTable
import ConcurrentWebServer.ProcessRefinement
import ConcurrentWebServer.ServerWork
set_option autoImplicit false

/-!
Left to itself, the server answers and closes every connection it has accepted,
whatever the order in which its threads and children go on.
-/

namespace ConcurrentWebServer.Server
open Execution CStrings MesaMonitor Queueing Requests

section Progress

variable {W : Type} [Fintype W] [DecidableEq W] {fs : FileSystem}
  {inputs : Nat → Stream' Received} {bytes method uri : Nat → List UInt8} {boot : Boot}
  {s s' : Process W}

structure Servable (fs : FileSystem) (req : Request) : Prop where
  file : req.isStatic = true → ∃ content srcp, openOrDie fs req.filename = .done content ∧
    mmapOrDie content req.filesize = .done srcp ∧ Whole srcp req.filesize
  program : req.isStatic = false → ∃ output, fs.execve req.filename req.cgiargs = some output

def WorkerPc.Prepared : WorkerPc → Prop
  | .mapped job _ srcp | .header job srcp | .body job srcp => Whole srcp job.req.filesize
  | .forking job => job.req.isStatic = false
  | .idle | .getting | .serving _ | .waiting _ | .closing _ => True

structure Running (boot : Boot) (fs : FileSystem) (bytes uri : Nat → List UInt8) (s : Process W) :
    Prop where
  owned : Owned s
  sources : Sources s
  coupled : Coupled s
  engaged : Engaged s
  offspring : Offspring s
  replying : Replying fs bytes uri s
  borrowed : Borrowed boot s
  prepared (w : W) : (s.worker w).Prepared
  buffer : s.monitor.shared.Sound
  sound : Exclusive s.monitor ∧ Ready (bufferMonitor Job.filesize) s.monitor
  wakeups : NoLostWakeup (bufferMonitor Job.filesize) available s.monitor
  children : s.children.length =
    (Finset.univ.filter fun w => Forking.isWaiting (s.worker w)).card

structure Drained (boot : Boot) (fs : FileSystem) (bytes : Nat → List UInt8) (s : Process W) :
    Prop where
  acceptor : s.acceptor = .accepting
  worker (w : W) : s.worker w = .getting ∧ s.monitor.pc (some w) = .wait .get
  buffer : s.monitor.shared.contents = []
  children : s.children = []
  fds : s.fds = boot.fds
  closed : s.closed.map Prod.fst = Multiset.range s.accepted
  replies (c : Nat) : c < s.accepted →
    Replies fs (bytes c) (s.conns c).sent ∧ (s.conns c).isOpen = false

omit [Fintype W] in
theorem working_of (hl : Step fs inputs s s') (ha : s'.accepted = s.accepted)
    (hm : s'.monitor = s.monitor) (hne : s' ≠ s) : Working fs inputs s s' := by
  refine ⟨hl,ha,fun hw => ?_,hne⟩
  obtain ⟨t,op,ht,he⟩ := hw
  exact not_spurious_self s.monitor ⟨t,op,ht,hm.symm.trans (congrArg Process.monitor he)⟩

omit [Fintype W] in
theorem working_acceptor (hl : Step fs inputs s s') (ha : s'.accepted = s.accepted)
    (hm : s'.monitor = s.monitor) (hne : s'.acceptor ≠ s.acceptor) : Working fs inputs s s' :=
  working_of hl ha hm fun he => hne (congrArg Process.acceptor he)

omit [Fintype W] in
theorem working_worker {w : W} {p q : WorkerPc} (hp : s.worker w = p)
    (hl : Step fs inputs s s') (hw : s'.worker = Function.update s.worker w q) (hpq : q ≠ p)
    (ha : s'.accepted = s.accepted) (hm : s'.monitor = s.monitor) : Working fs inputs s s' := by
  refine working_of hl ha hm fun he => hpq ?_
  rw [← hp,← he,hw,Function.update_self]

/-- A call of the buffer, a step in it, or a return from it. -/
theorem working_monitor {l : Label (Option W) (Op Job) (Done Job)} (hl : Step fs inputs s s')
    (hm : MesaMonitor.Step (bufferMonitor Job.filesize) s.monitor l s'.monitor)
    (hs : l = .tau → ¬ Spurious s.monitor s'.monitor) (ha : s'.accepted = s.accepted) :
    Working fs inputs s s' := by
  have hrank := rank_step hm hs
  refine ⟨hl,ha,fun hw => ?_,fun he => ?_⟩
  · obtain ⟨t,op,ht,he⟩ := hw
    have hsp : Spurious s.monitor s'.monitor := ⟨t,op,ht,congrArg Process.monitor he⟩
    have hup := hsp.rank
    cases l with
    | call t op =>
      simp only [RankChange] at hrank
      omega
    | tau => exact hs rfl hsp
    | ret t r =>
      simp only [RankChange] at hrank
      omega
  · rw [he] at hrank
    cases l <;> simp only [RankChange] at hrank <;> omega

theorem acceptor_works (hp : ∀ c, Proper (bytes c) (method c) (uri c))
    (h : Running boot fs bytes uri s) :
    s.acceptor = .accepting ∨ s.acceptor = .putting ∨ ∃ s', Working fs inputs s s' := by
  obtain ⟨R,hR,_⟩ := roles_of_acceptor s
  cases ha : s.acceptor with
  | accepting => exact .inl rfl
  | putting => exact .inr (.inl rfl)
  | parsing fd c =>
    rw [ha] at hR
    have hfd := h.owned.open hR
    have hclient := (h.replying.roles _ (roles_head hR)).parsing rfl
    obtain ⟨rest,hd⟩ := (hp c).decides fs fd .zeros
    rw [← show s.conns c = client (bytes c) from hclient] at hd
    refine .inr (.inr ?_)
    cases hv : outcome fs fd (method c) (uri c) with
    | error p =>
      rw [hv] at hd
      exact ⟨_,working_acceptor (.refuse ha hfd hd) rfl rfl (by simp [ha])⟩
    | ok req =>
      rw [hv] at hd
      exact ⟨_,working_acceptor (.approve ha hfd hd) rfl rfl (by simp [ha])⟩
  | refusing fd c p =>
    rw [ha] at hR
    have how := h.replying.roles _ (roles_head hR)
    have hwrite := writeAll_const (s.conns c) how.outcomes p.chunks
    exact .inr (.inr ⟨_,working_acceptor (.page ha (h.owned.open hR) hwrite) rfl rfl
      (by simp [ha])⟩)
  | closing fd c =>
    rw [ha] at hR
    have how := h.replying.roles _ (roles_head hR)
    have hclose : closeOrDie (s.conns c) = .done { s.conns c with isOpen := false } := by
      rw [closeOrDie,how.isOpen]
      rfl
    exact .inr (.inr ⟨_,working_acceptor (.reject ha (h.owned.open hR) hclose) rfl rfl
      (by simp [ha])⟩)
  | submitting job =>
    have hcall := MesaMonitor.Step.call (M := bufferMonitor Job.filesize) (s := s.monitor) main
      (.put job) (h.coupled.main_idle (by simp [ha]))
    exact .inr (.inr ⟨_,working_monitor (.submit ha hcall) hcall (by simp) rfl⟩)

omit [DecidableEq W] in
theorem exists_free (h : Running boot fs bytes uri s)
    (hfree : {fd | boot.fds fd = none}.Infinite) : ∃ fd, s.fds fd = none := by
  by_contra hno
  push Not at hno
  obtain ⟨F,hF,hcard⟩ := hfree.exists_subset_card_eq
    (s.monitor.shared.count+2*Fintype.card W+2)
  have hle := borrowed_card h.owned h.coupled h.borrowed (F := F) fun fd hfd => by
    rw [show boot.fds fd = none from hF hfd]
    exact hno fd
  omega

theorem child_works (h : Running boot fs bytes uri s) {k : Child} (hk : k ∈ s.children)
    (hex : k.exited = false) : ∃ s', Working fs inputs s s' := by
  obtain ⟨left,right,hch⟩ := List.append_of_mem hk
  have hmoved : ∀ {k' : Child} {s' : Process W}, s'.children = left ++ k' :: right →
      k' ≠ k → s' ≠ s := by
    intro k' s' hch' hne he
    rw [he,hch] at hch'
    have heq := (List.append_cancel_left hch'.symm)
    exact hne (List.cons.inj heq).1
  cases hout : k.output with
  | nil =>
    refine ⟨_,working_of (.childExit hch hex hout) rfl rfl (hmoved rfl fun he => ?_)⟩
    rw [← he] at hex
    cases hex
  | cons x rest =>
    have hfd := h.offspring.stdout hk hex
    have hout' : k.output = [x] ++ rest := hout
    refine ⟨_,working_of (.childWrite hch hex hout' hfd) rfl rfl (hmoved rfl fun he => ?_)⟩
    rw [← he] at hout
    simp at hout

theorem worker_works (hserve : ∀ c req, Vetted fs (uri c) req → Servable fs req)
    (hfree : {fd | boot.fds fd = none}.Infinite) (h : Running boot fs bytes uri s) (w : W) :
    s.worker w = .getting ∨ (∃ job, s.worker w = .waiting job) ∨
      ∃ s', Working fs inputs s s' := by
  obtain ⟨R,hR,_⟩ := roles_of_worker s w
  have hprep := h.prepared w
  cases hw : s.worker w with
  | getting => exact .inl rfl
  | waiting job => exact .inr (.inl ⟨job,rfl⟩)
  | idle =>
    have hcall := MesaMonitor.Step.call (M := bufferMonitor Job.filesize) (s := s.monitor) (some w)
      .get (h.coupled.worker_idle (by simp [hw]))
    exact .inr (.inr ⟨_,working_monitor (.fetch hw hcall) hcall (by simp) rfl⟩)
  | serving job =>
    rw [hw] at hR
    have how := h.replying.roles _ (roles_head hR)
    have hs := hserve _ _ (how.vetted job.req rfl)
    refine .inr (.inr ?_)
    cases hst : job.req.isStatic with
    | true =>
      obtain ⟨content,srcp,ho,hm,_⟩ := hs.file hst
      obtain ⟨srcfd,hfd⟩ := exists_free h hfree
      exact ⟨_,working_worker hw (.openFile hw hst hfd ho hm) rfl (by simp) rfl rfl⟩
    | false =>
      have hwrite := writeOrDie_const how.outcomes dynamicHeader
      exact ⟨_,working_worker hw (.status hw hst (h.owned.open hR) hwrite) rfl (by simp) rfl rfl⟩
  | mapped job srcfd srcp =>
    have hfd : s.fds srcfd ≠ none := by simp [h.sources.opened hw]
    exact .inr (.inr ⟨_,working_worker hw (.closeFile hw hfd) rfl (by simp) rfl rfl⟩)
  | header job srcp =>
    rw [hw] at hR
    have how := h.replying.roles _ (roles_head hR)
    have hwrite := writeOrDie_const how.outcomes (staticHeader job.req.filesize
      (requestGetFiletype job.req.filename))
    exact .inr (.inr ⟨_,working_worker hw (.header hw (h.owned.open hR) hwrite) rfl (by simp) rfl
      rfl⟩)
  | body job srcp =>
    rw [hw] at hR hprep
    have how := h.replying.roles _ (roles_head hR)
    have hwrite := writeMapped_whole how.outcomes hprep
    exact .inr (.inr ⟨_,working_worker hw (.body hw (h.owned.open hR) hwrite) rfl (by simp) rfl
      rfl⟩)
  | forking job =>
    rw [hw] at hR hprep
    have how := h.replying.roles _ (roles_head hR)
    obtain ⟨output,hx⟩ := (hserve _ _ (how.vetted job.req rfl)).program hprep
    exact .inr (.inr ⟨_,working_worker hw (.fork hw hx) rfl (by simp) rfl rfl⟩)
  | closing job =>
    rw [hw] at hR
    have how := h.replying.roles _ (roles_head hR)
    have hclose : closeOrDie (s.conns job.conn) =
        .done { s.conns job.conn with isOpen := false } := by
      rw [closeOrDie,show (s.conns job.conn).isOpen = true from how.isOpen]
      rfl
    exact .inr (.inr ⟨_,working_worker hw (.close hw (h.owned.open hR) hclose) rfl (by simp) rfl
      rfl⟩)

theorem monitor_works (h : Running boot fs bytes uri s) :
    (∃ s', Working fs inputs s s') ∨ Resting s.monitor := by
  have hbody : ∀ t op, s.monitor.pc t = .body op →
      ∃ r b, (bufferMonitor Job.filesize).body op s.monitor.shared = some (r,b) := by
    intro t op ht
    cases op with
    | put job => exact ⟨_,_,rfl⟩
    | get =>
      have hb := h.sound.2 t .get ht
      have hpos : 0 < s.monitor.shared.count := by
        simpa [bufferMonitor,Buffer.empty,Nat.pos_iff_ne_zero] using hb
      obtain ⟨x,b,hget,_⟩ := bufferGet_takes Job.filesize h.buffer hpos
      exact ⟨.got x,b,by simp [bufferMonitor,hget,Exec.result]⟩
  refine (rests_or_moves h.sound.1 hbody).imp (fun hmove => ?_) id
  obtain ⟨l,m,hm,hcall,hsp⟩ := hmove
  cases l with
  | call t op => exact absurd rfl (hcall t op)
  | tau => exact ⟨_,working_monitor (.internal hm) hm (fun _ => hsp) rfl⟩
  | ret t r =>
    have hpc := hm.returns
    have hown := h.engaged.within t
    have hne : s.monitor.pc t ≠ .idle := by simp [hpc]
    rw [hpc] at hown
    cases t with
    | none =>
      cases r with
      | put job =>
        have ha := h.coupled.acceptor.resolve_right hne
        exact ⟨_,working_monitor (.submitted ha hm) hm (by simp) rfl⟩
      | got job => exact hown.elim
    | some w =>
      cases r with
      | put job => exact hown.elim
      | got job =>
        have hw := (h.coupled.worker w).resolve_right hne
        exact ⟨_,working_monitor (.fetched hw hm) hm (by simp) rfl⟩

theorem worker_sleeps (hserve : ∀ c req, Vetted fs (uri c) req → Servable fs req)
    (hfree : {fd | boot.fds fd = none}.Infinite) (h : Running boot fs bytes uri s)
    (hno : ¬ ∃ s', Working fs inputs s s') (w : W) :
    s.worker w = .getting ∧ s.monitor.pc (some w) = .wait .get := by
  have hrest := (monitor_works h).resolve_left hno
  rcases worker_works hserve hfree h w with hw | hw | hw
  · refine ⟨hw,?_⟩
    have hown := h.engaged.within (some w)
    rcases hrest.outside (some w) with hp | ⟨op,hp⟩
    · exact absurd hp (h.engaged.worker w hw)
    · rw [hp] at hown
      cases op with
      | put job => exact hown.elim
      | get => exact hp
  · -- a worker that waits has a child to wait for
    obtain ⟨job,hw⟩ := hw
    have hpos : 0 < s.children.length := by
      rw [h.children,Finset.card_pos]
      exact ⟨w,Finset.mem_filter.mpr ⟨Finset.mem_univ w,by rw [hw]; rfl⟩⟩
    obtain ⟨k,hk⟩ := List.exists_mem_of_length_pos hpos
    exfalso
    apply hno
    cases hex : k.exited with
    | false => exact child_works h hk hex
    | true =>
      obtain ⟨left,right,hch⟩ := List.append_of_mem hk
      exact ⟨_,working_worker hw (.wait hw hch hex) rfl (by simp) rfl rfl⟩
  · exact absurd hw hno

theorem acceptor_accepts [Nonempty W] (hp : ∀ c, Proper (bytes c) (method c) (uri c))
    (hserve : ∀ c req, Vetted fs (uri c) req → Servable fs req)
    (hfree : {fd | boot.fds fd = none}.Infinite) (h : Running boot fs bytes uri s)
    (hno : ¬ ∃ s', Working fs inputs s s') :
    s.acceptor = .accepting ∧ s.monitor.shared.count = 0 := by
  have hrest := (monitor_works h).resolve_left hno
  obtain ⟨w⟩ := ‹Nonempty W›
  obtain ⟨_,hpc⟩ := worker_sleeps hserve hfree h hno w
  have hempty : s.monitor.shared.count = 0 := hrest.nothing h.wakeups hpc
  refine ⟨?_,hempty⟩
  rcases acceptor_works hp h with ha | ha | ha
  · exact ha
  · -- an acceptor that cannot put sleeps in front of a full buffer
    exfalso
    have hown := h.engaged.within main
    rcases hrest.outside main with hm | ⟨op,hm⟩
    · exact h.engaged.acceptor ha hm
    · rw [hm] at hown
      cases op with
      | put job =>
        have hfull : s.monitor.shared.cap - s.monitor.shared.count = 0 :=
          hrest.nothing h.wakeups hm
        have hcap := h.buffer.cap_pos
        omega
      | get => exact hown.elim
  · exact absurd ha hno

theorem works_or_drained [Nonempty W] (hp : ∀ c, Proper (bytes c) (method c) (uri c))
    (hserve : ∀ c req, Vetted fs (uri c) req → Servable fs req)
    (hfree : {fd | boot.fds fd = none}.Infinite) (h : Running boot fs bytes uri s)
    (hno : ¬ ∃ s', Working fs inputs s s') : Drained boot fs bytes s := by
  have hworker := worker_sleeps hserve hfree h hno
  obtain ⟨ha,hempty⟩ := acceptor_accepts hp hserve hfree h hno
  have hchildren : s.children = [] := by
    rw [← List.length_eq_zero_iff,h.children,Finset.card_eq_zero,Finset.filter_eq_empty_iff]
    intro w _
    simp [(hworker w).1,Forking.isWaiting]
  have hcontents : s.monitor.shared.contents = [] := by
    rw [← List.length_eq_zero_iff,Buffer.contents_length,hempty]
  have hmain : s.monitor.pc main = .idle := h.coupled.main_idle (by simp [ha])
  have hroles : s.roles = 0 := by
    have hflying : s.flying = 0 := by
      simp [Process.flying,Weights.total,Fintype.sum_option,(hworker _).2,hcontents,Weights.pc,
        flight,show s.monitor.pc none = .idle from hmain]
    simp [Process.roles,hflying,ha,AcceptorPc.roles,(hworker _).1,WorkerPc.roles]
  have hids := h.owned.ids
  rw [Process.held,hroles,Multiset.map_zero,Multiset.map_zero,zero_add] at hids
  refine ⟨ha,hworker,hcontents,hchildren,?_,hids,fun c hc => ?_⟩
  · funext fd
    by_cases hb : boot.fds fd = none
    · rw [hb]
      rcases h.borrowed.fresh fd hb with hn | ⟨c,hc⟩ | ⟨w,job,srcp,hw⟩
      · exact hn
      · have hheld := (h.owned.table fd c).mp hc
        simp [Process.held,hroles] at hheld
      · rw [(hworker w).1] at hw
        cases hw
    · exact h.borrowed.kept fd hb
  · have hm : c ∈ s.closed.map Prod.fst := by rwa [hids,Multiset.mem_range]
    obtain ⟨hopen,hreply⟩ := h.replying.closed c hm
    rw [Process.total,hchildren,show pending [] c = [] from rfl,List.append_nil] at hreply
    exact ⟨hreply,hopen⟩

end Progress

section Runs

variable {W : Type} [Fintype W] [DecidableEq W] {fs : FileSystem}
  {inputs : Nat → Stream' Received} {bytes method uri : Nat → List UInt8} {boot : Boot}
  {s s' : Process W} {capacity : Nat} {policy : SchedPolicy} {malloced : Int → Job}
  {b₀ : Buffer Job}

omit [Fintype W] in
theorem prepared_work {w : W} (p : WorkerPc) (h : ∀ u, (s.worker u).Prepared) (hp : p.Prepared)
    (u : W) : (Function.update s.worker w p u).Prepared := by
  by_cases he : u = w
  · subst he
    rwa [Function.update_self]
  · rw [Function.update_of_ne he]
    exact h u

theorem prepared_step (hserve : ∀ c req, Vetted fs (uri c) req → Servable fs req)
    (hreply : Replying fs bytes uri s) (h : ∀ w, (s.worker w).Prepared)
    (hl : Step fs inputs s s') (w : W) : (s'.worker w).Prepared := by
  have hold : ∀ {v : W} {p : WorkerPc}, s.worker v = p → p.Prepared := by
    intro v p hv
    rw [← hv]
    exact h v
  cases hl with
  | fetch _ _ => exact prepared_work .getting h trivial w
  | @fetched _ job _ _ _ => exact prepared_work (.serving job) h trivial w
  | @openFile v job srcfd content srcp hw hst _ ho hm =>
    have how := hreply.roles _ (role_of_worker hw (Multiset.mem_singleton_self job.ready))
    obtain ⟨content',srcp',ho',hm',hwhole⟩ := (hserve _ _ (how.vetted job.req rfl)).file hst
    rw [ho] at ho'
    cases ho'
    rw [hm] at hm'
    cases hm'
    exact prepared_work (.mapped job srcfd srcp) h hwhole w
  | @closeFile v job srcfd srcp hw _ => exact prepared_work (.header job srcp) h (hold hw :) w
  | @header v job srcp i conn hw _ _ => exact prepared_work (.body job srcp) h (hold hw :) w
  | @body v job _ _ _ _ _ _ => exact prepared_work (.closing job) h trivial w
  | @status v job _ _ _ hst _ _ => exact prepared_work (.forking job) h hst w
  | @fork v job _ _ _ => exact prepared_work (.waiting job) h trivial w
  | @wait v job _ _ _ _ _ _ => exact prepared_work (.closing job) h trivial w
  | close _ _ _ => exact prepared_work .idle h trivial w
  | _ => exact h w

theorem reaches_running (hc : FitsInt policy capacity)
    (hinit : bufferInit malloced capacity policy = .done b₀)
    (hin : ∀ c, inputs c = fromClient (bytes c)) (hp : ∀ c, Proper (bytes c) (method c) (uri c))
    (hserve : ∀ c req, Vetted fs (uri c) req → Servable fs req)
    (h : Reaches fs inputs (Process.start W boot b₀) s) : Running boot fs bytes uri s := by
  have hprepared : ∀ w, (s.worker w).Prepared := by
    induction h with
    | refl => exact fun w => trivial
    | tail hs hl ih => exact prepared_step hserve (reaches_replying hc hinit hin hp hs).2 ih hl
  obtain ⟨ho,hf⟩ := reaches_owned hc hinit h
  obtain ⟨hoff,hreply⟩ := reaches_replying hc hinit hin hp h
  have hm := reaches_monitor h
  have hsound := reaches_sound hm
  have hb₀ : b₀.count ≤ b₀.cap := by
    rw [bufferInit_done malloced hc.pos policy] at hinit
    cases hinit
    exact Nat.zero_le _
  have hwakeups := reaches_noLostWakeup bufferMonitor_unitSignals hb₀
    (fun op b r b' hb hbl hr => body_count_le hb hbl hr) hm
  exact ⟨ho,hf,(reaches_decided hc hinit h).2,reaches_engaged h,hoff,hreply,reaches_borrowed h,
    hprepared,(reaches_refines hc hinit hm).1,⟨hsound.exclusive,hsound.ready⟩,hwakeups,
    Forking.server_children hc hinit h⟩

/-- `n` steps without an `accept`, of which `k` are wakeups for no reason. -/
inductive Goes (fs : FileSystem) (inputs : Nat → Stream' Received) :
    Nat → Nat → Process W → Process W → Prop where
  | start (s : Process W) : Goes fs inputs 0 0 s s
  | work {n k : Nat} {s s' s'' : Process W} :
      Goes fs inputs n k s s' → Working fs inputs s' s'' → Goes fs inputs (n+1) k s s''
  | wake {n k : Nat} {s s' s'' : Process W} :
      Goes fs inputs n k s s' → WakesUp s' s'' → Goes fs inputs (n+1) (k+1) s s''

omit [Fintype W] in
theorem WakesUp.step (h : WakesUp s s') : Step fs inputs s s' := by
  obtain ⟨t,op,ht,rfl⟩ := h
  exact .internal (.spurious t op ht)

omit [Fintype W] in
theorem Goes.reaches {n k : Nat} {s₀ : Process W} (h : Goes fs inputs n k s s')
    (hs : Reaches fs inputs s₀ s) : Reaches fs inputs s₀ s' := by
  induction h with
  | start s => exact hs
  | work _ hw ih => exact (ih hs).tail hw.step
  | wake _ hw ih => exact (ih hs).tail hw.step

omit [Fintype W] in
theorem Goes.accepted {n k : Nat} (h : Goes fs inputs n k s s') : s'.accepted = s.accepted := by
  induction h with
  | start s => rfl
  | work _ hw ih => rw [hw.accepted,ih]
  | wake _ hw ih =>
    obtain ⟨t,op,_,rfl⟩ := hw
    exact ih

theorem WakesUp.stepsLeft (h : WakesUp s s') :
    s'.stepsLeft fs method uri = s.stepsLeft fs method uri + 3 := by
  obtain ⟨t,op,ht,rfl⟩ := h
  have hrank : (s.monitor.goto t (.woken op)).rank = s.monitor.rank+3 :=
    Spurious.rank ⟨t,op,ht,rfl⟩
  have hflying : flight.total (s.monitor.goto t (.woken op)) = s.flying :=
    flight.total_move s.monitor (by rw [ht]; rfl) s.monitor.owner
  simp only [Process.stepsLeft,Process.flying] at hflying ⊢
  rw [hflying,hrank]
  omega

theorem goes_bounded (hc : FitsInt policy capacity)
    (hinit : bufferInit malloced capacity policy = .done b₀)
    (hin : ∀ c, inputs c = fromClient (bytes c)) (hp : ∀ c, Proper (bytes c) (method c) (uri c))
    (hserve : ∀ c req, Vetted fs (uri c) req → Servable fs req)
    (h : Reaches fs inputs (Process.start W boot b₀) s) {n k : Nat}
    (hg : Goes fs inputs n k s s') :
    n + s'.stepsLeft fs method uri ≤ s.stepsLeft fs method uri + 4*k := by
  induction hg with
  | start s => omega
  | work hg hw ih =>
    have hr := reaches_running hc hinit hin hp hserve (hg.reaches h)
    have hless := working_less hp hr.owned hr.replying hr.buffer hr.sound.2 hw
    have hih := ih h
    omega
  | @wake n k s s' s'' _ hw ih =>
    have hsteps : s''.stepsLeft fs method uri = s'.stepsLeft fs method uri + 3 := hw.stepsLeft
    have hih := ih h
    omega

theorem comes_to_rest (hc : FitsInt policy capacity)
    (hinit : bufferInit malloced capacity policy = .done b₀)
    (hin : ∀ c, inputs c = fromClient (bytes c)) (hp : ∀ c, Proper (bytes c) (method c) (uri c))
    (hserve : ∀ c req, Vetted fs (uri c) req → Servable fs req)
    (h : Reaches fs inputs (Process.start W boot b₀) s) :
    ∃ n s', Goes fs inputs n 0 s s' ∧ ∀ s'', ¬ Working fs inputs s' s'' := by
  by_contra hno
  -- a run that can always go on gets longer than it can be
  have hlong : ∀ n, ∃ s', Goes fs inputs n 0 s s' := by
    intro n
    induction n with
    | zero => exact ⟨s,.start s⟩
    | succ n ih =>
      obtain ⟨s',hg⟩ := ih
      by_contra hstop
      exact hno ⟨n,s',hg,fun s'' hw => hstop ⟨s'',hg.work hw⟩⟩
  obtain ⟨s',hg⟩ := hlong (s.stepsLeft fs method uri+1)
  have hle := goes_bounded hc hinit hin hp hserve h hg
  omega

theorem drained_at_rest [Nonempty W] (hc : FitsInt policy capacity)
    (hinit : bufferInit malloced capacity policy = .done b₀)
    (hin : ∀ c, inputs c = fromClient (bytes c)) (hp : ∀ c, Proper (bytes c) (method c) (uri c))
    (hserve : ∀ c req, Vetted fs (uri c) req → Servable fs req)
    (hfree : {fd | boot.fds fd = none}.Infinite)
    (h : Reaches fs inputs (Process.start W boot b₀) s) {n k : Nat} (hg : Goes fs inputs n k s s')
    (hstop : ∀ s'', ¬ Working fs inputs s' s'') : Drained boot fs bytes s' := by
  have hr := reaches_running hc hinit hin hp hserve (hg.reaches h)
  exact works_or_drained hp hserve hfree hr (not_exists.mpr hstop)

theorem cgiFs_servable (_ : Nat) (req : Request) (hv : Vetted cgiFs (ascii "/cgi") req) :
    Servable cgiFs req := by
  have hst : false = req.isStatic := congrArg Prod.fst hv.resolved
  refine ⟨fun ht => ?_,fun _ => ⟨[88],rfl⟩⟩
  rw [← hst] at ht
  cases ht

theorem free_infinite : {fd : Nat | (⟨fun _ => none,by simp⟩ : Boot).fds fd = none}.Infinite := by
  simpa using Set.infinite_univ

/-- From any state on, the server comes to rest, and then it has answered and
closed every connection and let go of everything it had opened. -/
theorem server_drains [Nonempty W] (hc : FitsInt policy capacity)
    (hinit : bufferInit malloced capacity policy = .done b₀)
    (hin : ∀ c, inputs c = fromClient (bytes c)) (hp : ∀ c, Proper (bytes c) (method c) (uri c))
    (hserve : ∀ c req, Vetted fs (uri c) req → Servable fs req)
    (hfree : {fd | boot.fds fd = none}.Infinite)
    (h : Reaches fs inputs (Process.start W boot b₀) s) :
    (∀ n k s', Goes fs inputs n k s s' →
      n + s'.stepsLeft fs method uri ≤ s.stepsLeft fs method uri + 4*k) ∧
    (∀ n k s', Goes fs inputs n k s s' → (∀ s'', ¬ Working fs inputs s' s'') →
      Drained boot fs bytes s') ∧
    ∃ n s', Goes fs inputs n 0 s s' ∧ Drained boot fs bytes s' := by
  refine ⟨fun n k s' => goes_bounded hc hinit hin hp hserve h,
    fun n k s' => drained_at_rest hc hinit hin hp hserve hfree h,?_⟩
  obtain ⟨n,s',hg,hstop⟩ := comes_to_rest hc hinit hin hp hserve h
  exact ⟨n,s',hg,drained_at_rest hc hinit hin hp hserve hfree h hg hstop⟩

theorem server_drains_cgi : ∃ s : Process (Fin 2), s.accepted = 1 ∧ s.children ≠ [] ∧
    ∃ n s', Goes cgiFs (fun _ => fromClient cgiBytes) n 0 s s' ∧
      Drained ⟨fun _ => none,by simp⟩ cgiFs (fun _ => cgiBytes) s' := by
  obtain ⟨k,s,hs,h,_⟩ := first_started
  refine ⟨s,h.accepted,by simp [h.children],?_⟩
  exact (server_drains (fitsInt_of_le .fifo 1 (by decide) (by decide)) rfl (fun _ => rfl)
    (fun _ => cgiBytes_proper) cgiFs_servable free_infinite (reaches_of_patient hs)).2.2

end Runs

end ConcurrentWebServer.Server
