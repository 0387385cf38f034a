import ConcurrentWebServer.ListScheduling
import ConcurrentWebServer.SmallestFirst
import Mathlib.Algebra.Order.Group.Nat
import Mathlib.Data.Fintype.EquivFin
set_option autoImplicit false

/-! What the two policies do to the time that requests wait: SFF has the least
sum of waiting times, and FIFO a bound on who is served before. -/

namespace ConcurrentWebServer.Queueing
open Execution LeastFirst ListScheduling MesaMonitor

section Latency

variable {α W T : Type} [DecidableEq W] [Fintype W] [Nonempty W] [AddCommMonoid T]
  [LinearOrder T] [IsOrderedAddMonoid T] {filesize : α → Int}

/-- Workers that empty an SFF buffer, each taking the next request when it is
free, are done earlier on the whole than in any other order: whatever the
requests cost, as long as that grows with the file. -/
theorem sff_least_latency {capacity : Nat} (hc : FitsInt .sff capacity) {es : List (Done α)}
    {b : Buffer α} (h : Run filesize capacity .sff es b) {gs : List α} {b' : Buffer α}
    (hdrain : Execs (bufferMonitor filesize) b (gs.map .got) b') (hempty : b'.count = 0)
    {cost : α → T} (h0 : ∀ x, 0 ≤ cost x)
    (hcost : ∀ x y, filesize x ≤ filesize y → cost x ≤ cost y) :
    (∃ l : List (α × W), l.map Prod.fst = gs ∧ FirstFree cost (fun _ => 0) l) ∧
    ∀ l l' : List (α × W), l.map Prod.fst = gs → FirstFree cost (fun _ => 0) l →
      (l'.map Prod.fst).Perm b.contents →
      (completions cost (fun _ => 0) l).sum ≤ (completions cost (fun _ => 0) l').sum := by
  obtain ⟨hwf,_,hsched,_⟩ := h.served hc
  have hr := execs_refines filesize hwf hdrain
  have hnil : b'.contents = [] := List.length_eq_zero_iff.mp (by simpa using hempty)
  have hserved := hr.served
  rw [hsched,hnil] at hserved
  have hsort := hserved.drains.stableSort
  refine ⟨exists_firstFree cost _ gs,fun l l' hl hfirst hperm => ?_⟩
  refine least_first_optimal h0 hfirst ?_ (hperm.trans (hl ▸ hsort.perm.symm))
  have hsizes := hsort.sorted
  rw [← hl,List.pairwise_map] at hsizes
  rw [List.pairwise_map]
  exact hsizes.imp fun hle => hcost _ _ hle

theorem sff_least_latency_three : ∃ b b' : Buffer Int, ∃ gs,
    Execs (bufferMonitor id) b (gs.map .got) b' ∧ b.contents = [5,3,2] ∧
    ∀ l l' : List (Int × Fin 2), l.map Prod.fst = gs → FirstFree Int.toNat (fun _ => 0) l →
      (l'.map Prod.fst).Perm [5,3,2] →
      (completions Int.toNat (fun _ => 0) l).sum ≤ (completions Int.toNat (fun _ => 0) l').sum := by
  have he : ((bufferMonitor (id : Int → Int)).exec [.put 5,.put 3,.put 2]
      ⟨fun _ => 0,3,0,0,0,.sff⟩).map Prod.fst = some [.put 5,.put 3,.put 2] := by decide
  obtain ⟨b,hb⟩ := Ops.exec_execs he
  have hrun : Run id 3 .sff [.put 5,.put 3,.put 2] b := ⟨fun _ => 0,_,rfl,hb⟩
  have hc : FitsInt .sff 3 := fitsInt_of_le .sff 3 (by decide) (by decide)
  obtain ⟨hwf,_,_,hserved⟩ := hrun.served hc
  obtain ⟨gs,b',hdrain,hempty⟩ : ∃ (gs : List Int) (b' : Buffer Int),
      Execs (bufferMonitor id) b (gs.map .got) b' ∧ b'.count = 0 := exists_drain hwf
  have hcontents : b.contents = [5,3,2] := by
    generalize b.contents = n at hserved
    cases hserved with
    | put h =>
      cases h with
      | put h =>
        cases h with
        | put h =>
          cases h
          rfl
  obtain ⟨_,hleast⟩ := sff_least_latency (W := Fin 2) hc hrun hdrain hempty
    (fun x => Nat.zero_le x.toNat) (fun x y hxy => Int.toNat_le_toNat hxy)
  exact ⟨b,b',gs,hdrain,hcontents,hcontents ▸ hleast⟩

end Latency

section Overtaking

variable {α β : Type}

theorem execs_put_room {filesize : α → Int} {b c : Buffer α} {x : α} {es : List (Done α)}
    (h : Execs (bufferMonitor filesize) b (.put x :: es) c) : b.full = false := by
  have hcut : Execs (bufferMonitor filesize) b ([.put x] ++ es) c := h
  obtain ⟨d,hput,_⟩ := hcut.cut
  obtain ⟨op,hb,hr⟩ := hput.single
  cases op with
  | put req => exact hb
  | get =>
    obtain ⟨p,_,hp⟩ := Option.map_eq_some_iff.mp hr
    cases hp

theorem fifo_overtaking {filesize : β → Int} {capacity : Nat} (hc : FitsInt .fifo capacity)
    {pre mid : List (Done (Stamped β))} {x : Stamped β} {b : Buffer (Stamped β)}
    (h : Run (fun x => filesize x.req) capacity .fifo (pre ++ .put x :: mid) b)
    (ha : Arrivals (pre ++ .put x :: mid)) (hx : Pending (pre ++ .put x :: mid) x) :
    (getsOf mid).length < capacity := by
  obtain ⟨malloced,b₀,hinit,he⟩ := h
  obtain ⟨b₁,hpre,hrest⟩ := he.cut
  have hrun : Run (fun x : Stamped β => filesize x.req) capacity .fifo pre b₁ :=
    ⟨malloced,b₀,hinit,hpre⟩
  obtain ⟨hwf,hcap,_,hserved⟩ := hrun.served hc
  obtain ⟨_,_,_,hall⟩ := Run.served hc ⟨malloced,b₀,hinit,he⟩
  have hcount : b₁.count < capacity := by
    have hroom := execs_put_room hrest
    have hle := hwf.count_le
    simp only [Buffer.full,beq_eq_false_iff_ne] at hroom
    omega
  have horder := hserved.fifo
  have hin := (hall.pending_iff ha x).mp hx
  have hfifo := hall.fifo
  have hnodup := ha.nodup
  simp only [List.nil_append,putsOf_append,getsOf_append,putsOf_put,getsOf_put]
    at horder hfifo hnodup
  have hlen := congrArg List.length horder
  rw [List.length_append,Buffer.contents_length] at hlen
  -- `x` is not among the requests served, so those were all put before it
  have hgets : (getsOf pre ++ getsOf mid).length ≤ (putsOf pre).length := by
    rw [hfifo] at hnodup
    rcases List.append_eq_append_iff.mp hfifo with ⟨l,hl,hrest⟩ | ⟨l,hl,_⟩
    · cases l with
      | nil => simp [hl]
      | cons y l =>
        obtain ⟨rfl,_⟩ := List.cons.inj hrest
        refine absurd rfl ((List.nodup_append.mp hnodup).2.2 x ?_ x hin)
        simp [hl]
    · simp [hl]
  rw [List.length_append] at hgets
  omega

theorem leastAt_second {filesize : α → Int} {x y z : α} {m : Nat}
    (h : LeastAt filesize [x,y] m z) (hlt : filesize y < filesize x) : m = 1 ∧ z = y := by
  have hm := h.lt
  match m with
  | 0 =>
    have hz : x = z := Option.some.inj h.get
    have hle := h.le y (by simp)
    rw [← hz] at hle
    omega
  | 1 => exact ⟨rfl,(Option.some.inj h.get).symm⟩
  | m+2 => simp at hm

theorem sff_overtakes {filesize : α → Int} {b : Buffer α} (h : b.Sound)
    (hs : b.sched = .sff) (hcap : 2 ≤ b.cap) {x y : α} (hx : b.contents = [x])
    (hlt : filesize y < filesize x) :
    ∃ b', Execs (bufferMonitor filesize) b [.put y,.got y] b' ∧ b'.Sound ∧
      b'.cap = b.cap ∧ b'.sched = .sff ∧ b'.contents = [x] := by
  have hcount : b.count = 1 := by rw [← Buffer.contents_length,hx]; rfl
  have hfull : b.full = false := by
    simp only [Buffer.full,hcount,beq_eq_false_iff_ne]
    omega
  have hwf := sound_put h (by omega) y
  have hcontents := contents_put h.toWellFormed (by omega) y
  rw [hx] at hcontents
  obtain ⟨z,b',hget,hwf',hcap',hsched',ht⟩ := bufferGet_takes filesize hwf (by simp [bufferPut])
  have hput : Execs (bufferMonitor filesize) b [.put y] (bufferPut b y) :=
    execs_put .nil hfull y
  have hboth : Execs (bufferMonitor filesize) b [.put y,.got z] b' :=
    execs_get hput (by simp [Buffer.empty,bufferPut]) hget
  rw [hcontents,show (bufferPut b y).sched = .sff from hs] at ht
  obtain ⟨rfl,hleft⟩ : z = y ∧ b'.contents = [x] := by
    generalize b'.contents = l at ht
    cases ht with
    | sff hm =>
      obtain ⟨rfl,rfl⟩ := leastAt_second hm hlt
      exact ⟨rfl,rfl⟩
  exact ⟨b',hboth,hwf',hcap',hsched'.trans hs,hleft⟩

def waiting : Stamped Int := ⟨0,1⟩

def overtakers (n : Nat) : List (Done (Stamped Int)) :=
  (List.range n).flatMap fun i => [.put ⟨i+1,0⟩,.got ⟨i+1,0⟩]

theorem overtakers_succ (n : Nat) :
    overtakers (n+1) = overtakers n ++ [.put ⟨n+1,0⟩,.got ⟨n+1,0⟩] := by
  simp [overtakers,List.range_succ]

theorem overtakers_puts (n : Nat) :
    (putsOf (overtakers n)).map Stamped.arrival = List.range' 1 n ∧
      (getsOf (overtakers n)).length = n ∧ .got waiting ∉ overtakers n := by
  induction n with
  | zero => simp [overtakers]
  | succ n ih =>
    obtain ⟨hputs,hgets,hnot⟩ := ih
    rw [overtakers_succ]
    refine ⟨?_,?_,?_⟩
    · simp [hputs,List.range'_concat,add_comm]
    · simp [hgets]
    · simp only [List.mem_append,not_or]
      exact ⟨hnot,by simp [waiting]⟩

theorem overtakers_execs {capacity : Nat} (hc : FitsInt .sff capacity) (h2 : 2 ≤ capacity)
    (n : Nat) :
    ∃ b, Run (fun x : Stamped Int => id x.req) capacity .sff (.put waiting :: overtakers n) b ∧
      b.Sound ∧ b.cap = capacity ∧ b.sched = .sff ∧ b.contents = [waiting] := by
  induction n with
  | zero =>
    have hwf : (⟨fun _ => waiting,capacity,0,0,0,.sff⟩ : Buffer (Stamped Int)).Sound :=
      sound_init _ hc
    have hput : Execs (bufferMonitor fun x : Stamped Int => id x.req)
        ⟨fun _ => waiting,capacity,0,0,0,.sff⟩ [.put waiting] _ :=
      execs_put .nil (by simp [Buffer.full]; omega) waiting
    exact ⟨_,⟨fun _ => waiting,_,bufferInit_done _ (by omega) .sff,hput⟩,
      sound_put hwf (by simp; omega) waiting,rfl,rfl,
      contents_put hwf.toWellFormed (by simp; omega) waiting⟩
  | succ n ih =>
    obtain ⟨b,⟨malloced,b₀,hinit,he⟩,hwf,hcap,hsched,hcontents⟩ := ih
    have hlt : id (⟨n+1,0⟩ : Stamped Int).req < id waiting.req := by simp [waiting]
    obtain ⟨b',hmore,hwf',hcap',hsched',hcontents'⟩ :=
      sff_overtakes hwf hsched (by omega) hcontents hlt
    rw [overtakers_succ,← List.cons_append]
    exact ⟨b',⟨malloced,b₀,hinit,he.append hmore⟩,hwf',hcap'.trans hcap,hsched',hcontents'⟩

/-- Who is served before a pending request: with FIFO fewer than the buffer has
slots, in any run; with SFF, and two slots, any number. -/
theorem overtaking_bounds {capacity : Nat} (hc : 0 < capacity) (hlt : capacity < 2^31) :
    (∀ (filesize : β → Int) (pre mid : List (Done (Stamped β))) (x : Stamped β)
      (b : Buffer (Stamped β)),
      Run (fun x => filesize x.req) capacity .fifo (pre ++ .put x :: mid) b →
      Arrivals (pre ++ .put x :: mid) → Pending (pre ++ .put x :: mid) x →
      (getsOf mid).length < capacity) ∧
    (2 ≤ capacity → capacity ≤ 2^30 → ∀ n, ∃ (x : Stamped Int) (mid : List (Done (Stamped Int)))
      (b : Buffer (Stamped Int)),
      Run (fun x => id x.req) capacity .sff (.put x :: mid) b ∧ Arrivals (.put x :: mid) ∧
        Pending (.put x :: mid) x ∧ (getsOf mid).length = n) := by
  refine ⟨fun filesize pre mid x b h ha hx => fifo_overtaking ⟨hc,hlt,.inl rfl⟩ h ha hx,
    fun h2 hsmall n => ?_⟩
  obtain ⟨b,hrun,_⟩ := overtakers_execs ⟨hc,hlt,.inr hsmall⟩ h2 n
  obtain ⟨hputs,hgets,hnot⟩ := overtakers_puts n
  refine ⟨waiting,overtakers n,b,hrun,?_,⟨List.mem_cons_self,by simpa using hnot⟩,hgets⟩
  have hlen := congrArg List.length hputs
  simp only [List.length_map,List.length_range'] at hlen
  rw [Arrivals,putsOf_put,List.map_cons,hputs,List.length_cons,hlen,List.range_eq_range',
    List.range'_succ]
  rfl

theorem overtaking_bounds_two : ∃ (x : Stamped Int) (mid : List (Done (Stamped Int)))
    (b : Buffer (Stamped Int)),
    Run (fun x => id x.req) 2 .sff (.put x :: mid) b ∧ Arrivals (.put x :: mid) ∧
      Pending (.put x :: mid) x ∧ (getsOf mid).length = 1000 :=
  (overtaking_bounds (β := Int) (by decide : 0 < 2) (by decide)).2 (by decide) (by decide) 1000

end Overtaking

end ConcurrentWebServer.Queueing
