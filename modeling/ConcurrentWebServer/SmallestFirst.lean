import ConcurrentWebServer.CapacityOverflow
set_option autoImplicit false

/-! The order in which a whole run of the SFF buffer serves its requests. -/

namespace ConcurrentWebServer.Queueing
open Execution LeastFirst MesaMonitor

section Runs

variable {α : Type} {filesize : α → Int}

theorem Served.cut {p : SchedPolicy} {es fs : List (Done α)} {l n : List α}
    (h : Served filesize p l (es ++ fs) n) :
    ∃ m, Served filesize p l es m ∧ Served filesize p m fs n := by
  induction es generalizing l with
  | nil => exact ⟨l,.nil,h⟩
  | cons e es ih =>
    cases h with
    | put h =>
      obtain ⟨m,h₁,h₂⟩ := ih h
      exact ⟨m,.put h₁,h₂⟩
    | got ht h =>
      obtain ⟨m,h₁,h₂⟩ := ih h
      exact ⟨m,.got ht h₁,h₂⟩

theorem Served.drains {l : List α} {gs : List α} (h : Served filesize .sff l (gs.map .got) []) :
    Drains filesize l gs := by
  induction gs generalizing l with
  | nil =>
    cases h
    exact .nil
  | cons x gs ih =>
    cases h with
    | got ht h =>
      cases ht with
      | sff hm => exact .cons hm (ih h)

theorem exists_drain {b : Buffer α} (h : b.Sound) :
    ∃ (gs : List α) (b' : Buffer α),
      Execs (bufferMonitor filesize) b (gs.map .got) b' ∧ b'.count = 0 := by
  generalize hn : b.count = n
  induction n generalizing b with
  | zero => exact ⟨[],b,.nil,hn⟩
  | succ n ih =>
    obtain ⟨x,c,hget,hwf,_,_,ht⟩ := bufferGet_takes filesize h (by omega)
    have hlen := (ht.perm filesize).length_eq
    simp only [Buffer.contents_length,List.length_cons] at hlen
    have hne : b.empty = false := by simp [Buffer.empty,hn]
    obtain ⟨gs,b',he,h0⟩ := ih hwf (by omega)
    exact ⟨x :: gs,b',(execs_get .nil hne hget).append he,h0⟩

end Runs

structure Stamped (β : Type) where
  arrival : Nat
  req : β
  deriving DecidableEq, Repr

section Order

variable {β : Type}

def Arrivals (es : List (Done (Stamped β))) : Prop :=
  (putsOf es).map Stamped.arrival = List.range (putsOf es).length

def Pending (es : List (Done (Stamped β))) (x : Stamped β) : Prop :=
  .put x ∈ es ∧ .got x ∉ es

def Before (filesize : β → Int) (x y : Stamped β) : Prop :=
  filesize x.req < filesize y.req ∨
    filesize x.req = filesize y.req ∧ x.arrival < y.arrival

theorem Before.asymm {filesize : β → Int} {x y : Stamped β} (h : Before filesize x y) :
    ¬ Before filesize y x := by
  unfold Before at *
  omega

theorem Arrivals.left {es fs : List (Done (Stamped β))} (h : Arrivals (es ++ fs)) :
    Arrivals es := by
  have ht := congrArg (List.take (putsOf es).length) h
  simp only [putsOf_append,List.map_append,List.length_append] at ht
  rw [List.take_left' (by simp),List.take_range] at ht
  rw [Arrivals,ht]
  congr 1
  omega

theorem Arrivals.nodup {es : List (Done (Stamped β))} (h : Arrivals es) :
    (putsOf es).Nodup := by
  apply List.Nodup.of_map Stamped.arrival
  rw [h]
  exact List.nodup_range

theorem Arrivals.lt {es : List (Done (Stamped β))} (h : Arrivals es) {x : Stamped β}
    (hx : x ∈ putsOf es) : x.arrival < (putsOf es).length := by
  have hm := List.mem_map_of_mem (f := Stamped.arrival) hx
  rw [h] at hm
  exact List.mem_range.mp hm

theorem Arrivals.mem_left {es fs : List (Done (Stamped β))} (h : Arrivals (es ++ fs))
    {x y : Stamped β} (hx : x ∈ putsOf es) (hy : y ∈ putsOf (es ++ fs))
    (hlt : y.arrival < x.arrival) : y ∈ putsOf es := by
  rw [putsOf_append,List.mem_append] at hy
  rcases hy with hy | hy
  · exact hy
  -- the puts of `fs` are numbered after all those of `es`
  have hx' := h.left.lt hx
  have hd := congrArg (List.drop (putsOf es).length) h
  simp only [putsOf_append,List.map_append] at hd
  rw [List.drop_left' (by simp)] at hd
  have hm := List.mem_map_of_mem (f := Stamped.arrival) hy
  rw [hd,List.mem_drop_iff_getElem] at hm
  obtain ⟨i,hi,he⟩ := hm
  rw [List.getElem_range] at he
  omega

variable {filesize : β → Int}

theorem Served.sorted {p : SchedPolicy} {es : List (Done (Stamped β))} {l n : List (Stamped β)}
    (h : Served (fun x => filesize x.req) p l es n)
    (hs : (l ++ putsOf es).Pairwise fun x y => x.arrival < y.arrival) :
    n.Pairwise fun x y => x.arrival < y.arrival := by
  induction h with
  | nil => simpa using hs
  | put _ ih => exact ih (by simpa using hs)
  | got ht _ ih =>
    refine ih (hs.sublist ?_)
    simp only [putsOf_got]
    apply List.Sublist.append_right
    cases ht with
    | fifo => exact List.sublist_cons_self _ _
    | sff _ => exact List.eraseIdx_sublist _ _

theorem Served.arrivalOrder {p : SchedPolicy} {es : List (Done (Stamped β))}
    {n : List (Stamped β)} (h : Served (fun x => filesize x.req) p [] es n)
    (ha : Arrivals es) : n.Pairwise fun x y => x.arrival < y.arrival := by
  apply h.sorted
  rw [List.nil_append,← List.pairwise_map (f := Stamped.arrival) (R := (· < ·)),ha]
  exact List.pairwise_lt_range

theorem Served.pending_iff {p : SchedPolicy} {es : List (Done (Stamped β))}
    {n : List (Stamped β)} (h : Served (fun x => filesize x.req) p [] es n)
    (ha : Arrivals es) (x : Stamped β) : Pending es x ↔ x ∈ n := by
  have hp := h.conserves
  rw [List.nil_append] at hp
  have hnd := hp.nodup_iff.mp ha.nodup
  rw [Pending,← mem_putsOf,← mem_getsOf,hp.mem_iff,List.mem_append]
  constructor
  · rintro ⟨hg | hn,hng⟩
    · exact absurd hg hng
    · exact hn
  · exact fun hn => ⟨.inr hn,fun hg => (List.nodup_append.mp hnd).2.2 x hg x hn rfl⟩

theorem LeastAt.before {l : List (Stamped β)} {m : Nat} {x y : Stamped β}
    (h : LeastAt (fun x => filesize x.req) l m x)
    (hl : l.Pairwise fun x y => x.arrival < y.arrival) (hy : y ∈ l) (hne : y ≠ x) :
    Before filesize x y := by
  have hle := h.le y hy
  rw [h.split,List.mem_append,List.mem_cons] at hy
  rcases hy with hy | hy | hy
  · exact .inl (h.first y hy)
  · exact absurd hy hne
  · rw [h.split] at hl
    have hlt := (List.pairwise_cons.mp (List.pairwise_append.mp hl).2.1).1 y hy
    rcases lt_or_eq_of_le hle with hk | hk
    · exact .inl hk
    · exact .inr ⟨hk,hlt⟩

/-- Every get returns the first of the pending requests in the order `Before`. -/
theorem Served.got_before {pre rest : List (Done (Stamped β))} {n : List (Stamped β)}
    {x y : Stamped β}
    (h : Served (fun x => filesize x.req) .sff [] (pre ++ .got x :: rest) n)
    (ha : Arrivals (pre ++ .got x :: rest)) (hy : Pending pre y) (hne : y ≠ x) :
    Before filesize x y := by
  obtain ⟨l,h₁,h₂⟩ := h.cut
  have hl := h₁.arrivalOrder ha.left
  have hyl := (h₁.pending_iff ha.left y).mp hy
  cases h₂ with
  | got ht _ =>
    cases ht with
    | sff hm => exact LeastAt.before hm hl hyl hne

theorem Served.got_pending {p : SchedPolicy} {pre rest : List (Done (Stamped β))}
    {n : List (Stamped β)} {x : Stamped β}
    (h : Served (fun x => filesize x.req) p [] (pre ++ .got x :: rest) n)
    (ha : Arrivals (pre ++ .got x :: rest)) : Pending pre x := by
  obtain ⟨l,h₁,h₂⟩ := h.cut
  cases h₂ with
  | got ht _ =>
    rw [h₁.pending_iff ha.left x,(ht.perm _).mem_iff]
    exact List.mem_cons_self

theorem Arrivals.put {es : List (Done (Stamped β))} (h : Arrivals es) (req : β) :
    Arrivals (es ++ [.put ⟨(putsOf es).length,req⟩]) := by
  rw [Arrivals] at h ⊢
  simp [h,List.range_succ]

theorem Arrivals.got {es : List (Done (Stamped β))} (h : Arrivals es) (x : Stamped β) :
    Arrivals (es ++ [.got x]) := by
  rw [Arrivals] at h ⊢
  simpa using h

theorem Run.stamp {capacity : Nat} (hc : 0 < capacity) {policy : SchedPolicy}
    {es : List (Done β)} {b : Buffer β} (h : Run filesize capacity policy es b) :
    ∃ (es' : List (Done (Stamped β))) (b' : Buffer (Stamped β)),
      Run (fun x => filesize x.req) capacity policy es' b' ∧ Arrivals es' ∧
        es'.map (Done.map Stamped.req) = es ∧ b'.map Stamped.req = b := by
  obtain ⟨malloced,b₀,hinit,he⟩ := h
  rw [bufferInit_done malloced hc policy] at hinit
  cases hinit
  induction he with
  | nil =>
    exact ⟨[],_,⟨fun i => ⟨0,malloced i⟩,_,bufferInit_done _ hc policy,.nil⟩,rfl,rfl,rfl⟩
  | @snoc es y z op r _ hb hr ih =>
    obtain ⟨es',y',⟨m,c,hm,he'⟩,ha,hes,rfl⟩ := ih
    cases op with
    | put req =>
      cases hr
      refine ⟨_,_,⟨m,c,hm,execs_put he' hb ⟨(putsOf es').length,req⟩⟩,ha.put req,?_,?_⟩
      · simp [hes,Done.map]
      · exact (bufferPut_map Stamped.req y' _).symm
    | get =>
      have hg := bufferGet_map Stamped.req filesize y'
      simp only [bufferMonitor,hg] at hr
      cases hx : bufferGet (fun x => filesize x.req) y' with
      | done p =>
        obtain ⟨x,z'⟩ := p
        simp only [hx,Exec.map,Exec.result,Option.map_some,Option.some.injEq,
          Prod.mk.injEq] at hr
        obtain ⟨rfl,rfl⟩ := hr
        exact ⟨_,z',⟨m,c,hm,execs_get he' hb hx⟩,ha.got x,by simp [hes,Done.map],rfl⟩
      | abort => simp [hx,Exec.map,Exec.result] at hr
      | unfinished => simp [hx,Exec.map,Exec.result] at hr

variable (filesize) in
/-- The order of service in a run `es` that has come to the buffer `b`. -/
structure GlobalOrder (es : List (Done (Stamped β))) (b : Buffer (Stamped β)) : Prop where
  first : ∀ pre mid rest x y, es = pre ++ mid ++ .got y :: rest → Pending pre x → Pending pre y →
    Before filesize x y → .got x ∈ mid
  overtaken : ∀ pre rest x y, es = pre ++ .got x :: rest → Pending pre y → y.arrival < x.arrival →
    filesize x.req < filesize y.req
  ties : ∀ pre rest x y, es = pre ++ .got x :: rest → .put y ∈ es →
    filesize y.req = filesize x.req → y.arrival < x.arrival → .got y ∈ pre
  drains : ∃ (gs : List (Stamped β)) (b' : Buffer (Stamped β)),
    Execs (bufferMonitor fun x => filesize x.req) b (gs.map .got) b' ∧ b'.count = 0
  sorts : ∀ (gs : List (Stamped β)) (b' : Buffer (Stamped β)),
    Execs (bufferMonitor fun x => filesize x.req) b (gs.map .got) b' → b'.count = 0 →
    StableSort (fun x => filesize x.req) b.contents gs

theorem globalOrder {capacity : Nat} (hc : FitsInt .sff capacity)
    {es : List (Done (Stamped β))} {b : Buffer (Stamped β)}
    (h : Run (fun x => filesize x.req) capacity .sff es b) (ha : Arrivals es) :
    GlobalOrder filesize es b := by
  obtain ⟨hwf,_,hsched,hs⟩ := h.served hc
  refine ⟨?_,?_,?_,exists_drain hwf,?_⟩
  · rintro pre mid rest x y rfl hx _ hxy
    by_contra hmid
    have hpend : Pending (pre ++ mid) x :=
      ⟨List.mem_append_left _ hx.1,fun hg => (List.mem_append.mp hg).elim hx.2 hmid⟩
    refine hxy.asymm (hs.got_before ha hpend ?_)
    rintro rfl
    exact hxy.asymm hxy
  · rintro pre rest x y rfl hy hlt
    have hne : y ≠ x := by
      rintro rfl
      omega
    have hb := hs.got_before ha hy hne
    unfold Before at hb
    omega
  · rintro pre rest x y rfl hput hsize hlt
    by_contra hgot
    have hx := mem_putsOf.mpr (hs.got_pending ha).1
    have hy := mem_putsOf.mp (ha.mem_left hx (mem_putsOf.mpr hput) hlt)
    have hne : y ≠ x := by
      rintro rfl
      omega
    have hb := hs.got_before ha ⟨hy,hgot⟩ hne
    unfold Before at hb
    omega
  · intro gs b' he h0
    have hr := execs_refines (fun x : Stamped β => filesize x.req) hwf he
    have hnil : b'.contents = [] := List.length_eq_zero_iff.mp (by simpa using h0)
    have hserved := hr.served
    rw [hsched,hnil] at hserved
    exact hserved.drains.stableSort

variable (filesize) in
/-- The order of service in a whole run of an SFF buffer of at most 2^30 slots.
Every run is one of numbered requests. -/
theorem sff_global_order {capacity : Nat} (hc : FitsInt .sff capacity) :
    (∀ (es : List (Done (Stamped β))) (b : Buffer (Stamped β)),
      Run (fun x => filesize x.req) capacity .sff es b → Arrivals es → GlobalOrder filesize es b) ∧
    ∀ (es : List (Done β)) (b : Buffer β), Run filesize capacity .sff es b →
      ∃ (es' : List (Done (Stamped β))) (b' : Buffer (Stamped β)),
        Run (fun x => filesize x.req) capacity .sff es' b' ∧ Arrivals es' ∧
          es'.map (Done.map Stamped.req) = es ∧ b'.map Stamped.req = b :=
  ⟨fun _ _ h ha => globalOrder hc h ha,fun _ _ h => h.stamp hc.pos⟩

end Order

def largeFirst : Stamped Int := ⟨0,5⟩

def smallSecond : Stamped Int := ⟨1,3⟩

def overtaking : List (Done (Stamped Int)) :=
  [.put largeFirst,.put smallSecond,.got smallSecond,.got largeFirst]

theorem overtaking_run : ∃ b, Run (fun x : Stamped Int => id x.req) 2 .sff overtaking b := by
  have he : ((bufferMonitor fun x : Stamped Int => id x.req).exec
      [.put largeFirst,.put smallSecond,.get,.get]
      ⟨fun _ => largeFirst,2,0,0,0,.sff⟩).map Prod.fst = some overtaking := by decide
  obtain ⟨b,hb⟩ := Ops.exec_execs he
  exact ⟨b,fun _ => largeFirst,_,rfl,hb⟩

theorem overtaking_order :
    ∃ b, Run (fun x : Stamped Int => id x.req) 2 .sff overtaking b ∧
      ∀ pre mid rest x y, overtaking = pre ++ mid ++ .got y :: rest → Pending pre x →
        Pending pre y → Before id x y → .got x ∈ mid := by
  obtain ⟨b,h⟩ := overtaking_run
  have hc : FitsInt .sff 2 := fitsInt_of_le .sff 2 (by decide) (by decide)
  exact ⟨b,h,((sff_global_order id hc).1 _ b h rfl).first⟩

/-- With the largest capacity a request of size 4 is pending while one of size 5
is served. -/
theorem larger_served_first :
    ∃ b, Run (fun x : Stamped Int => id x.req) (2^31-1) .sff
        [.put ⟨0,3⟩,.put ⟨1,5⟩,.got ⟨0,3⟩,.put ⟨2,4⟩,.got ⟨1,5⟩] b ∧
      ¬ GlobalOrder id [.put ⟨0,3⟩,.put ⟨1,5⟩,.got ⟨0,3⟩,.put ⟨2,4⟩,.got ⟨1,5⟩] b := by
  obtain ⟨_,b,he⟩ := overflow_execs (fun x : Stamped Int => id x.req) (fun _ => ⟨0,0⟩)
    ⟨0,3⟩ ⟨1,5⟩ ⟨2,4⟩ (by decide)
  refine ⟨b,⟨_,_,bufferInit_done _ (by decide) .sff,he⟩,fun h => ?_⟩
  have hgot := h.first [.put ⟨0,3⟩,.put ⟨1,5⟩,.got ⟨0,3⟩,.put ⟨2,4⟩] [] [] ⟨2,4⟩ ⟨1,5⟩ rfl
    ⟨by decide,by decide⟩ ⟨by decide,by decide⟩ (by unfold Before; decide)
  cases hgot

end ConcurrentWebServer.Queueing
