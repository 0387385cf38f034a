import ConcurrentWebServer.ChildReaping
set_option autoImplicit false

/-! When the client of a closed connection sees the end of its stream. -/

namespace ConcurrentWebServer.Forking
open ForkWait
open Server (Boot Descriptor Descriptors STDOUT_FILENO dup2)

def OpenIn (fds fds' : Descriptors) : Prop :=
  ∀ fd i, fds fd = some (.conn i) → ∃ fd', fds' fd' = some (.conn i)

theorem OpenIn.refl (fds : Descriptors) : OpenIn fds fds := fun fd _ h => ⟨fd,h⟩

theorem openIn_dup2 (fds : Descriptors) (oldfd newfd : Nat) :
    OpenIn (dup2 fds oldfd newfd) fds := by
  intro fd i h
  by_cases hfd : fd = newfd
  · rw [hfd,Server.dup2_self] at h
    exact ⟨oldfd,h⟩
  · rw [dup2,Function.update_of_ne hfd] at h
    exact ⟨fd,h⟩

theorem conn_of_update {fds : Descriptors} {fd₀ fd i : Nat} {d : Option Descriptor}
    (hd : d ≠ some (.conn i)) (h : Function.update fds fd₀ d fd = some (.conn i)) :
    fd ≠ fd₀ ∧ fds fd = some (.conn i) := by
  by_cases hfd : fd = fd₀
  · rw [hfd,Function.update_self] at h
    exact absurd h hd
  · rw [Function.update_of_ne hfd] at h
    exact ⟨hfd,h⟩

section Tables

variable {W : Type} [DecidableEq W] {s s' : Processes W} {a : Act W}

/-- Between `accept` and `close`, a connection stays where it is. -/
theorem step_table (hl : Step s a s') :
    (∀ fd i, s'.fds fd = some (.conn i) → s.fds fd = some (.conn i)) ∧
      s'.accepted = s.accepted ∨
    ∃ fd, s'.fds = Function.update s.fds fd (some (.conn s.accepted)) ∧
      s'.accepted = s.accepted+1 ∧ s'.closed = s.closed := by
  cases hl with
  | accept fd _ _ => exact .inr ⟨fd,rfl,rfl,rfl⟩
  | reject _ _ => exact .inl ⟨fun _ _ h => (conn_of_update (by simp) h).2,rfl⟩
  | openFile _ _ _ _ => exact .inl ⟨fun _ _ h => (conn_of_update (by simp) h).2,rfl⟩
  | closeFile _ => exact .inl ⟨fun _ _ h => (conn_of_update (by simp) h).2,rfl⟩
  | close _ _ => exact .inl ⟨fun _ _ h => (conn_of_update (by simp) h).2,rfl⟩
  | _ => exact .inl ⟨fun _ _ h => h,rfl⟩

theorem close_step {w : W} (hl : Step s (.close w) s') :
    ∃ t own i, s.place w = .closing t own ∧ s.fds t.connFd = some (.conn i) ∧
      s' = { (s.bind t.connFd none).move w .idle with closed := (i,own) :: s.closed } := by
  cases hl with
  | close hw hi => exact ⟨_,_,_,hw,hi,rfl⟩

theorem step_child (hl : Step s a s') {c' : Child Inherited} (hc : c' ∈ s'.children)
    (hrun : c'.exited = false) :
    (∃ c ∈ s.children, c.exited = false ∧ c'.pid = c.pid ∧ c'.data.born = c.data.born ∧
      OpenIn c'.data.fds c.data.fds) ∨
    a = .other ∧ c'.data.born = s.accepted ∧ c'.data.fds = s.fds := by
  have hsame : c' ∈ s.children → ∃ c ∈ s.children, c.exited = false ∧ c'.pid = c.pid ∧
      c'.data.born = c.data.born ∧ OpenIn c'.data.fds c.data.fds :=
    fun h => ⟨c',h,hrun,rfl,rfl,.refl _⟩
  cases hl with
  | fork _ =>
    rcases List.mem_append.mp hc with hc | hc
    · exact .inl (hsame hc)
    · rw [List.mem_singleton.mp hc]
      exact .inr ⟨rfl,rfl,rfl⟩
  | @redirect left right child hch hr _ =>
    rcases mem_of_replace child hc with rfl | hc
    · exact .inl ⟨child,by simp [hch],hr,rfl,rfl,openIn_dup2 _ _ _⟩
    · exact .inl (hsame (hch ▸ hc))
  | @release left right child fd hch hr =>
    rcases mem_of_replace child hc with rfl | hc
    · exact .inl ⟨child,by simp [hch],hr,rfl,rfl,
        fun fd' _ h => ⟨fd',(conn_of_update (by simp) h).2⟩⟩
    · exact .inl (hsame (hch ▸ hc))
  | @exit left right child hch hr =>
    rcases mem_of_replace child hc with rfl | hc
    · cases hrun
    · exact .inl (hsame (hch ▸ hc))
  | wait _ hreap => exact .inl (hsame (hreap.sublist.mem hc))
  | _ => exact .inl (hsame hc)

/-- The table has every connection at most once and not after its close, and a
child can only have those that came before it. -/
structure Tabled (s : Processes W) : Prop where
  lt : ∀ fd i, s.fds fd = some (.conn i) → i < s.accepted
  once : ∀ fd fd' i, s.fds fd = some (.conn i) → s.fds fd' = some (.conn i) → fd = fd'
  shut : ∀ i own, (i,own) ∈ s.closed → i < s.accepted ∧ ∀ fd, s.fds fd ≠ some (.conn i)
  born : ∀ c ∈ s.children, c.exited = false →
    ∀ fd i, c.data.fds fd = some (.conn i) → i < c.data.born

theorem step_born (h : Tabled s) (hl : Step s a s') : ∀ c ∈ s'.children, c.exited = false →
    ∀ fd i, c.data.fds fd = some (.conn i) → i < c.data.born := by
  intro c' hc hrun fd i hi
  rcases step_child hl hc hrun with ⟨c,hold,hr,_,hb,hsub⟩ | ⟨_,hb,hfds⟩
  · obtain ⟨fd',hi'⟩ := hsub fd i hi
    rw [hb]
    exact h.born c hold hr fd' i hi'
  · rw [hfds] at hi
    rw [hb]
    exact h.lt fd i hi

/-- After a step other than `accept`, a connection that `request_serve` has
closed is gone from the table, since it was there only once. -/
theorem step_shut (h : Tabled s) (hl : Step s a s')
    (hsub : ∀ fd i, s'.fds fd = some (.conn i) → s.fds fd = some (.conn i)) {i : Nat}
    {own : Option Nat} (hm : (i,own) ∈ s'.closed) :
    i < s.accepted ∧ ∀ fd, s'.fds fd ≠ some (.conn i) := by
  rcases step_closed hl hm with hm | ⟨w,t,rfl,hw,hi⟩
  · obtain ⟨hlt,hno⟩ := h.shut i own hm
    exact ⟨hlt,fun fd hfd => hno fd (hsub fd i hfd)⟩
  · refine ⟨h.lt _ _ hi,fun fd hfd => ?_⟩
    obtain ⟨t',_,_,hw',_,rfl⟩ := close_step hl
    rw [hw] at hw'
    cases hw'
    obtain ⟨hne,hold⟩ := conn_of_update (by simp) hfd
    exact hne (h.once _ _ _ hold hi)

omit [DecidableEq W] in
theorem accept_cases (h : Tabled s) {fd₀ fd i : Nat}
    (hi : Function.update s.fds fd₀ (some (.conn s.accepted)) fd = some (.conn i)) :
    fd = fd₀ ∧ i = s.accepted ∨ i < s.accepted ∧ s.fds fd = some (.conn i) := by
  by_cases hfd : fd = fd₀
  · rw [hfd,Function.update_self] at hi
    cases hi
    exact .inl ⟨hfd,rfl⟩
  · rw [Function.update_of_ne hfd] at hi
    exact .inr ⟨h.lt fd i hi,hi⟩

theorem step_tabled (h : Tabled s) (hl : Step s a s') : Tabled s' := by
  rcases step_table hl with ⟨hsub,ha⟩ | ⟨fd₀,hfds,ha,hclosed⟩
  · refine ⟨fun fd i hi => ?_,fun fd fd' i hi hi' => h.once fd fd' i (hsub _ _ hi) (hsub _ _ hi'),
      fun i own hm => ?_,step_born h hl⟩
    · rw [ha]
      exact h.lt fd i (hsub fd i hi)
    · rw [ha]
      exact step_shut h hl hsub hm
  · refine ⟨fun fd i hi => ?_,fun fd fd' i hi hi' => ?_,fun i own hm => ?_,step_born h hl⟩
    · rw [hfds] at hi
      rcases accept_cases h hi with ⟨_,rfl⟩ | ⟨hlt,_⟩ <;> omega
    · rw [hfds] at hi hi'
      rcases accept_cases h hi with ⟨hfd,_⟩ | ⟨_,hold⟩
      · rcases accept_cases h hi' with ⟨hfd',_⟩ | ⟨_,_⟩
        · rw [hfd,hfd']
        · omega
      · rcases accept_cases h hi' with ⟨_,_⟩ | ⟨_,hold'⟩
        · omega
        · exact h.once _ _ _ hold hold'
    · rw [hclosed] at hm
      obtain ⟨hlt,hno⟩ := h.shut i own hm
      refine ⟨by omega,fun fd hfd => ?_⟩
      rw [hfds] at hfd
      rcases accept_cases h hfd with ⟨_,_⟩ | ⟨_,hold⟩
      · omega
      · exact hno fd hold

theorem reaches_tabled {boot : Boot} (h : Reaches boot s) : Tabled s := by
  induction h with
  | refl =>
    exact ⟨fun _ _ hi => absurd hi (boot.clear _ _),fun _ _ _ hi => absurd hi (boot.clear _ _),
      by simp [Processes.start],by simp [Processes.start]⟩
  | tail _ hl ih =>
    obtain ⟨a,ha,_⟩ := hl
    exact step_tabled ih ha

end Tables

section Ends

variable {W : Type}

def Processes.Holds (s : Processes W) (i : Nat) : Prop :=
  (∃ fd, s.fds fd = some (.conn i)) ∨
    ∃ c ∈ s.children, c.exited = false ∧ ∃ fd, c.data.fds fd = some (.conn i)

/-- The client sees the end of its stream once `request_serve` has closed the
connection and the child of that request has exited. -/
def EndsAtClose (s : Processes W) : Prop :=
  ∀ i own, (i,own) ∈ s.closed → (∀ c ∈ s.children, some c.pid = own → c.exited = true) →
    ¬ s.Holds i

/-- When `request_serve` closes a connection, no other request's child that was
forked since its `accept` is running. -/
def CalmClose (s : Processes W) : Act W → Prop
  | .close w => ∀ t own i, s.place w = .closing t own → s.fds t.connFd = some (.conn i) →
      ∀ c ∈ s.children, c.exited = false → some c.pid ≠ own → c.data.born ≤ i
  | .wait _ | .other => True

def Released (s : Processes W) : Prop :=
  ∀ i own, (i,own) ∈ s.closed → ∀ c ∈ s.children, c.exited = false → some c.pid ≠ own →
    ∀ fd, c.data.fds fd ≠ some (.conn i)

variable [DecidableEq W] {s s' : Processes W} {a : Act W} {boot : Boot}

theorem step_released (ht : Tabled s) (hl : Step s a s') (hg : CalmClose s a) (h : Released s) :
    Released s' := by
  intro i own hm c' hc hrun hother fd hi
  rcases step_child hl hc hrun with ⟨c,hold,hr,hpid,_,hsub⟩ | ⟨rfl,_,hfds⟩
  · obtain ⟨fd',hi'⟩ := hsub fd i hi
    rw [hpid] at hother
    rcases step_closed hl hm with hm | ⟨w,t,rfl,hw,hconn⟩
    · exact h i own hm c hold hr hother fd' hi'
    · have hle := hg t own i hw hconn c hold hr hother
      have hlt := ht.born c hold hr fd' i hi'
      omega
  · rcases step_closed hl hm with hm | ⟨_,_,ha,_⟩
    · rw [hfds] at hi
      exact (ht.shut i own hm).2 fd hi
    · cases ha

omit [DecidableEq W] in
theorem Released.ends (ht : Tabled s) (h : Released s) : EndsAtClose s := by
  rintro i own hm hown (⟨fd,hi⟩ | ⟨c,hc,hrun,fd,hi⟩)
  · exact (ht.shut i own hm).2 fd hi
  · refine h i own hm c hc hrun (fun he => ?_) fd hi
    rw [hown c hc he] at hrun
    cases hrun

/-- In a run whose closes are all calm, each of them ends a stream. -/
theorem close_ends_stream (h : Runs CalmClose (Processes.start W boot) s) : EndsAtClose s := by
  have hreleased : Released s := by
    induction h with
    | refl => simp [Released,Processes.start]
    | tail hs hl ih =>
      obtain ⟨a,ha,hg⟩ := hl
      exact step_released (reaches_tabled (Runs.reaches hs)) ha hg ih
  exact hreleased.ends (reaches_tabled h.reaches)

theorem close_ends_stream_cgi : ∃ s : Processes Unit, s.closed = [(0,some 0)] ∧ ¬ s.Holds 0 := by
  obtain ⟨s,hs,hw,hfd,hc,hnil⟩ := forked_run CalmClose (fun _ => trivial)
  have hexit := hs.tail ⟨.other,.exit [] [] hc rfl,trivial⟩
  have hwait := hexit.tail ⟨.wait (),.wait hw (.reaped [] [] rfl),trivial⟩
  have hplace := Function.update_self () (Place.closing ⟨4,false⟩ (some 0)) s.place
  have hclose := hwait.tail ⟨.close (),.close hplace hfd,
    fun _ _ _ _ _ c hm => absurd hm (List.not_mem_nil (a := c))⟩
  exact ⟨_,congrArg (List.cons (0,some 0)) hnil,close_ends_stream hclose 0 (some 0) (.head _)
    fun c hm => absurd hm (List.not_mem_nil (a := c))⟩

/-- A child is forked while connection 1 is open, and still runs when that has
been served and closed. -/
theorem captured_connection : ∃ s : Processes (Fin 2),
    Reaches ⟨fun _ => none,by simp⟩ s ∧ s.closed = [(1,none)] ∧ s.Holds 1 ∧ ¬ EndsAtClose s := by
  have hrun : Reaches ⟨fun _ => none,by simp⟩ _ :=
    ((((((((((((Relation.ReflTransGen.refl).tail ⟨.other,.accept 4 rfl rfl,trivial⟩).tail
      ⟨.other,.put false rfl,trivial⟩).tail
      ⟨.other,.get (w := (0 : Fin 2)) (t := ⟨4,false⟩) 0 rfl rfl,trivial⟩).tail
      ⟨.other,.status (w := 0) rfl rfl,trivial⟩).tail ⟨.other,.accept 5 rfl rfl,trivial⟩).tail
      ⟨.other,.fork (w := 0) rfl,trivial⟩).tail ⟨.other,.put true rfl,trivial⟩).tail
      ⟨.other,.get (w := 1) (t := ⟨5,true⟩) 0 rfl rfl,trivial⟩).tail
      ⟨.other,.openFile (w := 1) 6 rfl rfl rfl,trivial⟩).tail
      ⟨.other,.closeFile (w := 1) rfl,trivial⟩).tail
      ⟨.other,.reply (w := 1) rfl,trivial⟩).tail ⟨.close 1,.close rfl rfl,trivial⟩
  exact ⟨_,hrun,rfl,.inr ⟨_,.head _,rfl,5,rfl⟩,fun h => h 1 none (.head _)
    (fun _ _ he => by cases he) (.inr ⟨_,.head _,rfl,5,rfl⟩)⟩

end Ends

end ConcurrentWebServer.Forking
