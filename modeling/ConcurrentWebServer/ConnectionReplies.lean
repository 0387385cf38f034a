import ConcurrentWebServer.ConnectionOwnership
import ConcurrentWebServer.SequentialHandler
set_option autoImplicit false

/-! What has been sent, is written by a child or is still to be sent for a
connection comes to the reply of the single-threaded server, at any time. -/

namespace ConcurrentWebServer.Server
open Execution MesaMonitor Queueing Requests

section Stages

/-- What is still sent for a connection from a stage on. -/
inductive Rest (fs : FileSystem) : Stage → List UInt8 → Prop where
  | page {p : ErrorPage} : Rest fs (.page p) p.bytes
  | ready {req : Request} {out : List UInt8} : Serves fs req out → Rest fs (.ready req) out
  | header {req : Request} {srcp : List UInt8} : Whole srcp req.filesize →
      Rest fs (.header req srcp)
        (staticHeader req.filesize (requestGetFiletype req.filename) ++ srcp)
  | body {req : Request} {srcp : List UInt8} : Whole srcp req.filesize →
      Rest fs (.body req srcp) srcp
  | forking {req : Request} {output : List UInt8} :
      fs.execve req.filename req.cgiargs = some output → Rest fs (.forking req) output
  | waiting : Rest fs .waiting []
  | last : Rest fs .last []

def Stage.req : Stage → Option Request
  | .ready req | .header req _ | .body req _ | .forking req => some req
  | .parsing | .page _ | .waiting | .last => none

def Stage.forked : Stage → Bool
  | .waiting | .last => true
  | .parsing | .page _ | .ready _ | .header _ _ | .body _ _ | .forking _ => false

variable {fs : FileSystem} {fd : Nat} {st st' : Stage} {conn conn' : Conn}

theorem Advance.early (h : Advance fs fd st conn st' conn') : st.forked = false := by
  cases h <;> rfl

/-- What is sent now and later comes to what was to be sent. -/
theorem Advance.rest (h : Advance fs fd st conn st' conn') (hst : st ≠ .parsing)
    (hall : conn.outcomes = Stream'.const .all) {r' : List UInt8} (hr : Rest fs st' r') :
    ∃ r, Rest fs st r ∧ conn.sent ++ r = conn'.sent ++ r' := by
  cases h with
  | refuse _ => exact absurd rfl hst
  | approve _ => exact absurd rfl hst
  | @page p _ _ hw =>
    rw [writeAll_const conn hall] at hw
    cases hw
    cases hr
    exact ⟨_,.page,by simp [ErrorPage.bytes]⟩
  | map hs ho hm =>
    cases hr with
    | header hwhole => exact ⟨_,.ready (serves_static hs ho hm hwhole),rfl⟩
  | header hw =>
    rw [writeOrDie_const hall] at hw
    cases hw
    cases hr with
    | body hwhole => exact ⟨_,.header hwhole,by simp⟩
  | body hw =>
    have hwhole := writeMapped_needs hall hw
    rw [writeMapped_whole hall hwhole] at hw
    cases hw
    cases hr
    exact ⟨_,.body hwhole,by simp⟩
  | status hs hw =>
    rw [writeOrDie_const hall] at hw
    cases hw
    cases hr with
    | forking hx => exact ⟨_,.ready (serves_dynamic hs hx),by simp⟩

theorem Advance.same (h : Advance fs fd st conn st' conn')
    (hall : conn.outcomes = Stream'.const .all) :
    conn'.isOpen = conn.isOpen ∧ conn'.outcomes = conn.outcomes := by
  cases h with
  | refuse hd =>
    rw [hd.input]
    exact ⟨rfl,rfl⟩
  | approve hd =>
    rw [hd.input]
    exact ⟨rfl,rfl⟩
  | page hw =>
    rw [writeAll_const conn hall] at hw
    cases hw
    exact ⟨rfl,rfl⟩
  | map _ _ _ => exact ⟨rfl,rfl⟩
  | header hw =>
    rw [writeOrDie_const hall] at hw
    cases hw
    exact ⟨rfl,rfl⟩
  | body hw =>
    obtain ⟨_,_,hw⟩ := bind_eq_done.mp hw
    rw [writeOrDie_const hall] at hw
    cases hw
    exact ⟨rfl,rfl⟩
  | status _ hw =>
    rw [writeOrDie_const hall] at hw
    cases hw
    exact ⟨rfl,rfl⟩

end Stages

section Children

def pending (l : List Child) (c : Nat) : List UInt8 :=
  (l.filter fun k => k.conn == c).flatMap Child.output

@[simp] theorem pending_append (l r : List Child) (c : Nat) :
    pending (l ++ r) c = pending l c ++ pending r c := by
  simp [pending]

theorem pending_cons (k : Child) (l : List Child) (c : Nat) :
    pending (k :: l) c = (if k.conn = c then k.output else []) ++ pending l c := by
  by_cases h : k.conn = c <;> simp [pending,h]

theorem pending_none {l : List Child} {c : Nat} (h : ∀ k ∈ l, k.conn ≠ c) : pending l c = [] := by
  have hf : l.filter (fun k => k.conn == c) = [] := by
    rw [List.filter_eq_nil_iff]
    simpa using h
  simp [pending,hf]

theorem pending_eq_nil {l : List Child} {c : Nat} :
    pending l c = [] ↔ ∀ k ∈ l, k.conn = c → k.output = [] := by
  simp [pending]

theorem pending_of_nodup {left right : List Child} {k : Child}
    (h : ((left ++ k :: right).map Child.conn).Nodup) :
    (∀ k' ∈ left, k'.conn ≠ k.conn) ∧ ∀ k' ∈ right, k'.conn ≠ k.conn := by
  rw [List.map_append,List.map_cons,List.nodup_middle,List.nodup_cons,← List.map_append] at h
  refine ⟨fun k' hk he => h.1 ?_,fun k' hk he => h.1 ?_⟩
  · exact List.mem_map.mpr ⟨k',List.mem_append_left _ hk,he⟩
  · exact List.mem_map.mpr ⟨k',List.mem_append_right _ hk,he⟩

variable {W : Type} [Fintype W] {fs : FileSystem} {inputs : Nat → Stream' Received}
  {s s' : Process W}

structure Offspring (s : Process W) : Prop where
  nodup : (s.children.map Child.conn).Nodup
  stdout {k : Child} : k ∈ s.children → k.exited = false →
    k.fds STDOUT_FILENO = some (.conn k.conn)
  exited {k : Child} : k ∈ s.children → k.exited = true → k.output = []
  lt {k : Child} : k ∈ s.children → k.conn < s.accepted
  early {r : Role} : r ∈ s.roles → r.stage.forked = false → ∀ k ∈ s.children, k.conn ≠ r.conn

theorem Owned.other (h : Owned s) {fd c : Nat} {st : Stage} {R : Multiset Role}
    (hr : s.roles = ⟨fd,c,st⟩ ::ₘ R) {r : Role} (hm : r ∈ R) : r.conn ≠ c := by
  have hn := h.conns
  rw [Process.held,hr,Multiset.map_cons,Multiset.map_cons,Multiset.nodup_cons,
    Multiset.map_map] at hn
  rintro rfl
  exact hn.1 (Multiset.mem_map.mpr ⟨r,hm,rfl⟩)

theorem Owned.role_lt (h : Owned s) {r : Role} (hm : r ∈ s.roles) : r.conn < s.accepted :=
  h.lt (Multiset.mem_map.mpr ⟨r,hm,rfl⟩)

theorem Offspring.keep (h : Offspring s) (hch : s'.children = s.children)
    (ha : s.accepted ≤ s'.accepted)
    (hr : ∀ r ∈ s'.roles, r.stage.forked = false → ∀ k ∈ s.children, k.conn ≠ r.conn) :
    Offspring s' where
  nodup := by rw [hch]; exact h.nodup
  stdout := by rw [hch]; exact h.stdout
  exited := by rw [hch]; exact h.exited
  lt := by rw [hch]; exact fun hk => (h.lt hk).trans_le ha
  early := by rw [hch]; exact fun hm hst => hr _ hm hst

theorem Offspring.replace (h : Offspring s) {left right : List Child} {k k' : Child}
    (hch : s.children = left ++ k :: right) (hch' : s'.children = left ++ k' :: right)
    (hc : k'.conn = k.conn)
    (hout : k'.exited = false → k'.fds STDOUT_FILENO = some (.conn k'.conn))
    (hex : k'.exited = true → k'.output = []) (hr : s'.roles = s.roles)
    (ha : s'.accepted = s.accepted) : Offspring s' := by
  have hold : ∀ x, x ∈ s'.children → x = k' ∨ x ∈ s.children := by
    intro x hx
    rw [hch,List.mem_append,List.mem_cons]
    rw [hch',List.mem_append,List.mem_cons] at hx
    rcases hx with hx | rfl | hx
    · exact .inr (.inl hx)
    · exact .inl rfl
    · exact .inr (.inr (.inr hx))
  have hk : k ∈ s.children := by simp [hch]
  refine ⟨?_,fun {x} hx hx' => ?_,fun {x} hx hx' => ?_,fun {x} hx => ?_,fun {r} hm hst x hx => ?_⟩
  · have hn := h.nodup
    rw [hch,List.map_append,List.map_cons] at hn
    rwa [hch',List.map_append,List.map_cons,hc]
  · rcases hold x hx with rfl | hx
    · exact hout hx'
    · exact h.stdout hx hx'
  · rcases hold x hx with rfl | hx
    · exact hex hx'
    · exact h.exited hx hx'
  · rw [ha]
    rcases hold x hx with rfl | hx
    · exact hc ▸ h.lt hk
    · exact h.lt hx
  · rw [hr] at hm
    rcases hold x hx with rfl | hx
    · exact hc ▸ h.early hm hst k hk
    · exact h.early hm hst x hx

theorem Offspring.fork (h : Offspring s) {k : Child} (hnew : ∀ x ∈ s.children, x.conn ≠ k.conn)
    (hlt : k.conn < s.accepted) (hex : k.exited = false)
    (hout : k.fds STDOUT_FILENO = some (.conn k.conn)) (hch : s'.children = s.children ++ [k])
    (ha : s'.accepted = s.accepted)
    (hr : ∀ r ∈ s'.roles, r.stage.forked = false →
      (∀ x ∈ s.children, x.conn ≠ r.conn) ∧ k.conn ≠ r.conn) : Offspring s' := by
  have hold : ∀ {x}, x ∈ s'.children → x ∈ s.children ∨ x = k := by
    intro x hx
    rw [hch] at hx
    exact (List.mem_append.mp hx).imp id List.mem_singleton.mp
  refine ⟨?_,fun {x} hx hx' => ?_,fun {x} hx hx' => ?_,fun {x} hx => ?_,fun {r} hm hst x hx => ?_⟩
  · rw [hch,List.map_append,List.nodup_append]
    refine ⟨h.nodup,by simp,?_⟩
    rintro _ hm _ hy rfl
    obtain ⟨x,hx,rfl⟩ := List.mem_map.mp hm
    exact hnew x hx (by simpa using hy)
  · rcases hold hx with hx | rfl
    · exact h.stdout hx hx'
    · exact hout
  · rcases hold hx with hx | rfl
    · exact h.exited hx hx'
    · rw [hex] at hx'
      cases hx'
  · rw [ha]
    rcases hold hx with hx | rfl
    · exact h.lt hx
    · exact hlt
  · obtain ⟨h₁,h₂⟩ := hr r hm hst
    rcases hold hx with hx | rfl
    · exact h₁ x hx
    · exact h₂

theorem offspring_change (ho : Owned s) (h : Offspring s) (hl : Change fs inputs s s') :
    Offspring s' := by
  cases hl with
  | accept fd _ _ _ hr ha _ hch =>
    refine h.keep hch (by omega) fun r hm hst => ?_
    rw [hr,Multiset.mem_cons] at hm
    rcases hm with rfl | hm
    · exact fun k hk => (h.lt hk).ne
    · exact h.early hm hst
  | @advance fd c st st' conn R hr hr' hadv _ _ ha _ hch =>
    refine h.keep hch ha.ge fun r hm hst => ?_
    rw [hr',Multiset.mem_cons] at hm
    rcases hm with rfl | hm
    · have hin : ⟨fd,c,st⟩ ∈ s.roles := roles_head hr
      have hc := h.early hin hadv.early
      exact hc
    · exact h.early (roles_tail hr hm) hst
  | quiet hr _ _ ha _ hch => exact h.keep hch ha.ge (hr ▸ fun r hm hst => h.early hm hst)
  | @fork fd c req R child hr hr' _ hc hex hout hch _ _ ha _ =>
    subst hc
    refine h.fork (h.early (roles_head hr) rfl) (ho.role_lt (roles_head hr)) hex hout hch ha
      fun r hm hst => ?_
    rw [hr',Multiset.mem_cons] at hm
    rcases hm with rfl | hm
    · cases hst
    · exact ⟨h.early (roles_tail hr hm) hst,(ho.other hr hm).symm⟩
  | @childWrite left right child chunk rest i hch hex hout hfd hch' _ hr _ ha _ =>
    have hstdout := h.stdout (show child ∈ s.children by simp [hch]) hex
    refine h.replace hch hch' rfl (fun _ => hstdout) (fun he => ?_) hr ha
    rw [hex] at he
    cases he
  | childExit hch _ hout hch' _ hr _ ha _ =>
    exact h.replace hch hch' rfl (by simp) (fun _ => hout) hr ha
  | @wait fd c R left right child w job hr hr' _ _ _ hch _ hch' _ _ ha _ =>
    have hsub : s'.children.Sublist s.children := by
      rw [hch,hch']
      exact (List.sublist_cons_self _ _).append_left left
    refine ⟨h.nodup.sublist (hsub.map _),fun hk => h.stdout (hsub.subset hk),
      fun hk => h.exited (hsub.subset hk),fun hk => ha ▸ h.lt (hsub.subset hk),
      fun {r} hm hst k hk => ?_⟩
    rw [hr',Multiset.mem_cons] at hm
    rcases hm with rfl | hm
    · cases hst
    · exact h.early (roles_tail hr hm) hst k (hsub.subset hk)
  | close who hr hr' _ _ _ _ ha hch =>
    refine h.keep hch ha.ge fun r hm hst => ?_
    rw [hr'] at hm
    exact h.early (roles_tail hr hm) hst

end Children

section Replying

variable {W : Type} [Fintype W] {fs : FileSystem} {inputs : Nat → Stream' Received}
  {bytes method uri : Nat → List UInt8} {s s' : Process W}

def Process.total (s : Process W) (c : Nat) : List UInt8 :=
  (s.conns c).sent ++ pending s.children c

structure OnWay (fs : FileSystem) (bytes uri : List UInt8) (st : Stage) (conn : Conn)
    (total : List UInt8) : Prop where
  isOpen : conn.isOpen = true
  outcomes : conn.outcomes = Stream'.const .all
  parsing : st = .parsing → conn = client bytes
  rest : st ≠ .parsing → ∀ r, Rest fs st r → Replies fs bytes (total ++ r)
  vetted : ∀ req, st.req = some req → Vetted fs uri req

structure Replying (fs : FileSystem) (bytes uri : Nat → List UInt8) (s : Process W) : Prop where
  roles : ∀ r ∈ s.roles,
    OnWay fs (bytes r.conn) (uri r.conn) r.stage (s.conns r.conn) (s.total r.conn)
  closed : ∀ c ∈ s.closed.map Prod.fst,
    (s.conns c).isOpen = false ∧ Replies fs (bytes c) (s.total c)

theorem onWay_advance {fd : Nat} {st st' : Stage} {conn conn' : Conn}
    {bytes method uri : List UInt8} (hp : Proper bytes method uri)
    (h : OnWay fs bytes uri st conn conn.sent) (hadv : Advance fs fd st conn st' conn') :
    OnWay fs bytes uri st' conn' conn'.sent := by
  obtain ⟨hopen,hout⟩ := hadv.same h.outcomes
  refine ⟨hopen.trans h.isOpen,hout.trans h.outcomes,?_,fun _ r hr => ?_,fun req hreq => ?_⟩
  · rintro rfl
    cases hadv
  · by_cases hst : st = .parsing
    · subst hst
      have hc := h.parsing rfl
      subst hc
      cases hadv with
      | @refuse f p _ _ hd =>
        obtain ⟨hv,he⟩ := hp.decided hd
        rw [he]
        cases hr
        have ha : Answers fs p.bytes (outcome fs fd method uri) := by
          rw [← hv]
          exact rfl
        exact hp.replies ha
      | approve hd =>
        obtain ⟨hv,he⟩ := hp.decided hd
        rw [he]
        cases hr with
        | ready hs =>
          have ha : Answers fs r (outcome fs fd method uri) := by
            rw [← hv]
            exact hs
          exact hp.replies ha
    · obtain ⟨r₀,hr₀,he⟩ := hadv.rest hst h.outcomes hr
      rw [← he]
      exact h.rest hst r₀ hr₀
  · cases hadv with
    | refuse _ => cases hreq
    | approve hd =>
      cases hreq
      have hc := h.parsing rfl
      subst hc
      exact hp.vetted (hp.decided hd).1.symm
    | page _ => cases hreq
    | map _ _ _ => exact h.vetted _ hreq
    | header _ => exact h.vetted _ hreq
    | body _ => cases hreq
    | status _ _ => exact h.vetted _ hreq

omit [Fintype W] in
theorem total_eq {c : Nat} (hc : s'.conns c = s.conns c) (hch : s'.children = s.children) :
    s'.total c = s.total c := by
  rw [Process.total,Process.total,hc,hch]

theorem Replying.keep (h : Replying fs bytes uri s) (hr : s'.roles = s.roles)
    (hcl : s'.closed = s.closed)
    (hc : ∀ c, (s'.conns c).isOpen = (s.conns c).isOpen ∧
      (s'.conns c).outcomes = (s.conns c).outcomes)
    (hp : ∀ r ∈ s.roles, r.stage = .parsing → s'.conns r.conn = s.conns r.conn)
    (ht : ∀ c, s'.total c = s.total c) : Replying fs bytes uri s' := by
  refine ⟨fun r hm => ?_,fun c hm => ?_⟩
  · rw [hr] at hm
    have ho := h.roles r hm
    obtain ⟨h₁,h₂⟩ := hc r.conn
    rw [ht]
    exact ⟨h₁.trans ho.isOpen,h₂.trans ho.outcomes,
      fun hst => (hp r hm hst).trans (ho.parsing hst),ho.rest,ho.vetted⟩
  · rw [hcl] at hm
    rw [(hc c).1,ht]
    exact h.closed c hm

theorem Owned.closed_lt (h : Owned s) {c : Nat} (hm : c ∈ s.closed.map Prod.fst) :
    c < s.accepted := by
  rw [← Multiset.mem_range,← h.ids]
  exact Multiset.mem_add.mpr (.inr hm)

theorem Owned.closed_ne (h : Owned s) {c : Nat} (hm : c ∈ s.closed.map Prod.fst) {r : Role}
    (hr : r ∈ s.roles) : c ≠ r.conn := by
  have hn := h.ids ▸ Multiset.nodup_range s.accepted
  have hd := (Multiset.nodup_add.mp hn).2.2
  rintro rfl
  refine Multiset.disjoint_left.mp hd ?_ hm
  rw [Process.held,Multiset.map_map]
  exact Multiset.mem_map.mpr ⟨r,hr,rfl⟩

/-- Only connection `c` is touched: all others are as they were. -/
theorem Replying.frame (h : Replying fs bytes uri s) {c : Nat}
    (hc : ∀ c', c' ≠ c → s'.conns c' = s.conns c' ∧ s'.total c' = s.total c') :
    (∀ r ∈ s.roles, r.conn ≠ c →
      OnWay fs (bytes r.conn) (uri r.conn) r.stage (s'.conns r.conn) (s'.total r.conn)) ∧
    ∀ c' ∈ s.closed.map Prod.fst, c' ≠ c →
      (s'.conns c').isOpen = false ∧ Replies fs (bytes c') (s'.total c') := by
  refine ⟨fun r hm hne => ?_,fun c' hm hne => ?_⟩
  · rw [(hc _ hne).1,(hc _ hne).2]
    exact h.roles r hm
  · rw [(hc _ hne).1,(hc _ hne).2]
    exact h.closed c' hm

theorem Replying.move (h : Replying fs bytes uri s) (ho : Owned s) {fd c : Nat} {st st' : Stage}
    {R : Multiset Role} (hr : s.roles = ⟨fd,c,st⟩ ::ₘ R) (hr' : s'.roles = ⟨fd,c,st'⟩ ::ₘ R)
    (hcl : s'.closed = s.closed)
    (hother : ∀ c', c' ≠ c → s'.conns c' = s.conns c' ∧ s'.total c' = s.total c')
    (hc : OnWay fs (bytes c) (uri c) st' (s'.conns c) (s'.total c)) : Replying fs bytes uri s' := by
  obtain ⟨hroles,hclosed⟩ := h.frame hother
  refine ⟨fun r hm => ?_,fun c' hm => ?_⟩
  · rw [hr',Multiset.mem_cons] at hm
    rcases hm with rfl | hm
    · exact hc
    · exact hroles r (roles_tail hr hm) (ho.other hr hm)
  · rw [hcl] at hm
    exact hclosed c' hm (ho.closed_ne hm (roles_head hr))

theorem replying_accept (hin : ∀ c, inputs c = fromClient (bytes c)) (ho : Owned s)
    (h : Replying fs bytes uri s) {fd : Nat}
    (hconns : s'.conns = Function.update s.conns s.accepted
      (Conn.fresh (inputs s.accepted) (Stream'.const .all)))
    (hr : s'.roles = ⟨fd,s.accepted,.parsing⟩ ::ₘ s.roles) (hcl : s'.closed = s.closed)
    (hch : s'.children = s.children) : Replying fs bytes uri s' := by
  have hother : ∀ c, c ≠ s.accepted → s'.conns c = s.conns c ∧ s'.total c = s.total c := by
    intro c hne
    have hc : s'.conns c = s.conns c := by rw [hconns,Function.update_of_ne hne]
    exact ⟨hc,total_eq hc hch⟩
  obtain ⟨hroles,hclosed⟩ := h.frame hother
  refine ⟨fun r hm => ?_,fun c hm => ?_⟩
  · rw [hr,Multiset.mem_cons] at hm
    rcases hm with rfl | hm
    · have hc : s'.conns s.accepted = client (bytes s.accepted) := by
        rw [hconns,Function.update_self,hin]
        rfl
      rw [hc]
      exact ⟨rfl,rfl,fun _ => rfl,fun hn => absurd rfl hn,by simp [Stage.req]⟩
    · exact hroles r hm (ho.role_lt hm).ne
  · rw [hcl] at hm
    exact hclosed c hm (ho.closed_lt hm).ne

theorem replying_advance (hp : ∀ c, Proper (bytes c) (method c) (uri c)) (ho : Owned s)
    (hk : Offspring s) (h : Replying fs bytes uri s) {fd c : Nat} {st st' : Stage} {conn : Conn}
    {R : Multiset Role} (hr : s.roles = ⟨fd,c,st⟩ ::ₘ R) (hr' : s'.roles = ⟨fd,c,st'⟩ ::ₘ R)
    (hadv : Advance fs fd st (s.conns c) st' conn)
    (hconns : s'.conns = Function.update s.conns c conn) (hcl : s'.closed = s.closed)
    (hch : s'.children = s.children) : Replying fs bytes uri s' := by
  refine h.move ho hr hr' hcl (fun c' hne => ?_) ?_
  · have hc : s'.conns c' = s.conns c' := by rw [hconns,Function.update_of_ne hne]
    exact ⟨hc,total_eq hc hch⟩
  · -- no child has been forked for it yet, so what is sent is all there is
    have hin := roles_head hr
    have hpend : pending s.children c = [] := pending_none (hk.early hin hadv.early)
    have hc : s'.conns c = conn := by rw [hconns,Function.update_self]
    have ht : s.total c = (s.conns c).sent := by rw [Process.total,hpend,List.append_nil]
    have ht' : s'.total c = conn.sent := by rw [Process.total,hc,hch,hpend,List.append_nil]
    have how := h.roles _ hin
    change OnWay _ _ _ _ _ (s.total c) at how
    rw [ht] at how
    rw [ht',hc]
    exact onWay_advance (hp c) how hadv

theorem replying_fork (ho : Owned s) (hk : Offspring s) (h : Replying fs bytes uri s) {fd c : Nat}
    {req : Request} {child : Child} {R : Multiset Role}
    (hr : s.roles = ⟨fd,c,.forking req⟩ ::ₘ R) (hr' : s'.roles = ⟨fd,c,.waiting⟩ ::ₘ R)
    (hx : fs.execve req.filename req.cgiargs = some child.output) (hc : child.conn = c)
    (hch : s'.children = s.children ++ [child]) (hconns : s'.conns = s.conns)
    (hcl : s'.closed = s.closed) : Replying fs bytes uri s' := by
  refine h.move ho hr hr' hcl (fun c' hne => ⟨by rw [hconns],?_⟩) ?_
  · have hne' : child.conn ≠ c' := hc ▸ hne.symm
    rw [Process.total,Process.total,hconns,hch,pending_append,pending_cons,if_neg hne']
    simp [pending]
  · have hin := roles_head hr
    have how := h.roles _ hin
    have hpend : pending s.children c = [] := pending_none (hk.early hin rfl)
    have ht : s'.total c = s.total c ++ child.output := by
      rw [Process.total,Process.total,hconns,hch,pending_append,pending_cons,if_pos hc,hpend]
      simp [pending]
    rw [hconns,ht]
    refine ⟨how.isOpen,how.outcomes,by simp,fun _ r hrest => ?_,by simp [Stage.req]⟩
    cases hrest
    rw [List.append_nil]
    exact how.rest (by simp) _ (.forking hx)

theorem replying_childWrite (hk : Offspring s) (h : Replying fs bytes uri s)
    {left right : List Child} {child : Child} {chunk rest : List UInt8} {i : Nat}
    (hch : s.children = left ++ child :: right) (hex : child.exited = false)
    (hout : child.output = chunk ++ rest) (hfd : child.fds STDOUT_FILENO = some (.conn i))
    (hch' : s'.children = left ++ { child with output := rest } :: right)
    (hconns : s'.conns = Function.update s.conns i
      { s.conns i with sent := (s.conns i).sent ++ chunk })
    (hr : s'.roles = s.roles) (hcl : s'.closed = s.closed) : Replying fs bytes uri s' := by
  have hmem : child ∈ s.children := by simp [hch]
  have hi : child.conn = i := by
    have hstd := hk.stdout hmem hex
    rw [hfd] at hstd
    cases hstd
    rfl
  subst hi
  have hnodup := hk.nodup
  rw [hch] at hnodup
  obtain ⟨hleft,hright⟩ := pending_of_nodup hnodup
  refine h.keep hr hcl (fun c => ?_) (fun r hm hst => ?_) (fun c => ?_)
  · rw [hconns]
    by_cases hc : c = child.conn
    · rw [hc,Function.update_self]
      exact ⟨rfl,rfl⟩
    · rw [Function.update_of_ne hc]
      exact ⟨rfl,rfl⟩
  · have hne := hk.early hm (by rw [hst]; rfl) child hmem
    rw [hconns,Function.update_of_ne hne.symm]
  · rw [Process.total,Process.total,hconns,hch,hch']
    by_cases hc : c = child.conn
    · subst hc
      simp only [pending_append,pending_cons,pending_none hleft,pending_none hright,hout,
        Function.update_self,if_true,List.nil_append,List.append_nil,List.append_assoc]
    · rw [Function.update_of_ne hc]
      simp only [pending_append,pending_cons,Ne.symm hc,if_false]

theorem replying_wait (ho : Owned s) (hk : Offspring s) (h : Replying fs bytes uri s) {fd c : Nat}
    {R : Multiset Role} {left right : List Child} {child : Child}
    (hr : s.roles = ⟨fd,c,.waiting⟩ ::ₘ R) (hr' : s'.roles = ⟨fd,c,.last⟩ ::ₘ R)
    (hch : s.children = left ++ child :: right) (hex : child.exited = true)
    (hch' : s'.children = left ++ right) (hconns : s'.conns = s.conns)
    (hcl : s'.closed = s.closed) : Replying fs bytes uri s' := by
  have hout := hk.exited (show child ∈ s.children by simp [hch]) hex
  have ht : ∀ c', s'.total c' = s.total c' := by
    intro c'
    rw [Process.total,Process.total,hconns,hch,hch']
    simp [pending_append,pending_cons,hout]
  refine h.move ho hr hr' hcl (fun c' _ => ⟨by rw [hconns],ht c'⟩) ?_
  have how := h.roles _ (roles_head hr)
  rw [hconns,ht]
  refine ⟨how.isOpen,how.outcomes,by simp,fun _ r hrest => ?_,by simp [Stage.req]⟩
  cases hrest
  exact how.rest (by simp) _ .waiting

theorem replying_close (ho : Owned s) (h : Replying fs bytes uri s) {fd c : Nat} {conn : Conn}
    {who : Option W} {R : Multiset Role} (hr : s.roles = ⟨fd,c,.last⟩ ::ₘ R) (hr' : s'.roles = R)
    (hclose : closeOrDie (s.conns c) = .done conn)
    (hconns : s'.conns = Function.update s.conns c conn) (hcl : s'.closed = (c,who) ::ₘ s.closed)
    (hch : s'.children = s.children) : Replying fs bytes uri s' := by
  have hin := roles_head hr
  have hother : ∀ c', c' ≠ c → s'.conns c' = s.conns c' ∧ s'.total c' = s.total c' := by
    intro c' hne
    have hc : s'.conns c' = s.conns c' := by rw [hconns,Function.update_of_ne hne]
    exact ⟨hc,total_eq hc hch⟩
  have hdone : (s'.conns c).isOpen = false ∧ Replies fs (bytes c) (s'.total c) := by
    obtain ⟨_,_,he⟩ := bind_eq_done.mp hclose
    cases he
    have hreply := (h.roles _ hin).rest (by simp) [] .last
    rw [List.append_nil] at hreply
    rw [Process.total,hconns,Function.update_self,hch]
    exact ⟨rfl,hreply⟩
  obtain ⟨hroles,hclosed⟩ := h.frame hother
  refine ⟨fun r hm => ?_,fun c' hm => ?_⟩
  · rw [hr'] at hm
    exact hroles r (roles_tail hr hm) (ho.other hr hm)
  · rw [hcl,Multiset.map_cons,Multiset.mem_cons] at hm
    rcases hm with rfl | hm
    · exact hdone
    · exact hclosed c' hm (ho.closed_ne hm hin)

theorem replying_change (hin : ∀ c, inputs c = fromClient (bytes c))
    (hp : ∀ c, Proper (bytes c) (method c) (uri c)) (ho : Owned s) (hk : Offspring s)
    (h : Replying fs bytes uri s) (hl : Change fs inputs s s') : Replying fs bytes uri s' := by
  cases hl with
  | accept fd _ _ hconns hr _ hcl hch => exact replying_accept hin ho h hconns hr hcl hch
  | advance hr hr' hadv hconns _ _ hcl hch =>
    exact replying_advance hp ho hk h hr hr' hadv hconns hcl hch
  | quiet hr hconns _ _ hcl hch =>
    have hc : ∀ c, s'.conns c = s.conns c := fun c => by rw [hconns]
    exact h.keep hr hcl (fun c => by rw [hc]; exact ⟨rfl,rfl⟩) (fun r _ _ => hc _)
      fun c => total_eq (hc c) hch
  | fork hr hr' hx hc _ _ hch hconns _ _ hcl =>
    exact replying_fork ho hk h hr hr' hx hc hch hconns hcl
  | childWrite hch hex hout hfd hch' hconns hr _ _ hcl =>
    exact replying_childWrite hk h hch hex hout hfd hch' hconns hr hcl
  | childExit hch _ hout hch' hconns hr _ _ hcl =>
    have hc : ∀ c, s'.conns c = s.conns c := fun c => by rw [hconns]
    refine h.keep hr hcl (fun c => by rw [hc]; exact ⟨rfl,rfl⟩) (fun r _ _ => hc _) fun c => ?_
    rw [Process.total,Process.total,hconns,hch,hch']
    simp only [pending_append,pending_cons]
  | wait hr hr' _ _ _ hch hex hch' hconns _ _ hcl =>
    exact replying_wait ho hk h hr hr' hch hex hch' hconns hcl
  | close who hr hr' hclose hconns _ hcl _ hch =>
    exact replying_close ho h hr hr' hclose hconns hcl hch

end Replying

end ConcurrentWebServer.Server
