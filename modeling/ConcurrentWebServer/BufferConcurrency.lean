import ConcurrentWebServer.CapacityOverflow
import Mathlib.Data.Fintype.Basic
import Mathlib.Data.Multiset.AddSub
set_option autoImplicit false

/-! The shared buffer under any number of threads. -/

namespace ConcurrentWebServer.Queueing
open Execution CircularArray MesaMonitor

section Safety

variable {α : Type} {filesize : α → Int}

theorem shift_reads {b : Buffer α} (h : b.WellFormed) {m k : Nat} {old : Int → α} {s : Shift α}
    (hs : Shifted b.cap b.head m k old s) (hmk : m+k < b.count) (fuel : Nat) :
    ∀ i ∈ s.reads b.cap b.tail fuel, i ∈ b.live := by
  have hle := h.count_le
  induction fuel generalizing k s with
  | zero => simp [Shift.reads]
  | succ fuel ih =>
    unfold Shift.reads
    rw [hs.test h hmk]
    by_cases hlt : m+k+1 < b.count
    · rw [decide_eq_true hlt,if_pos rfl]
      intro i hi
      cases List.mem_cons.mp hi with
      | inl he =>
        rw [he,hs.next]
        exact cell_mem_cells hlt
      | inr hr => exact ih (hs.step h (by omega)) hlt i hr
    · simp [hlt]

theorem bufferGet_reads_live {b : Buffer α} (h : b.Sound) (hc : 0 < b.count) :
    ∀ i ∈ bufferGetReads filesize b, i ∈ b.live := by
  have hhead : b.head ∈ b.live := by
    have h0 : cell b.cap b.head 0 ∈ b.live := cell_mem_cells hc
    rwa [cell_zero h.head_nonneg h.head_lt] at h0
  cases hs : b.sched with
  | fifo => simpa [bufferGetReads,hs] using hhead
  | sff =>
    have hm := scan_lt filesize hc
    have hphys := fun {i : Nat} => phys_eq (i := i) h.toWellFormed (h.fit hs)
    have hstart : b.shiftStart filesize = b.shiftFrom (b.scan filesize).minLogical := by
      rw [Buffer.shiftStart,Buffer.minPhys,hphys hm]
      rfl
    intro i hi
    simp only [bufferGetReads,hs,hstart,Buffer.minPhys,hphys hm,List.cons_append,List.mem_cons,
      List.mem_append,List.mem_map,List.mem_range'_1] at hi
    rcases hi with rfl | ⟨j,hj,rfl⟩ | rfl | hi
    · exact hhead
    · rw [hphys (by omega)]
      exact cell_mem_cells (by omega)
    · exact cell_mem_cells hm
    · exact shift_reads h.toWellFormed (shifted_start h.toWellFormed _) (by simpa using hm) _ i hi

variable {Tid : Type} [DecidableEq Tid] {capacity : Nat} {policy : SchedPolicy}
  {malloced : Int → α} {b₀ : Buffer α}

theorem reaches_refines (hc : FitsInt policy capacity)
    (hinit : bufferInit malloced capacity policy = .done b₀)
    {s : State Tid (Buffer α) (Op α) (Done α)}
    (h : Reaches (bufferMonitor filesize) (start Tid (Op α) (Done α) b₀) s) :
    s.shared.Sound ∧ s.shared.cap = capacity ∧ s.shared.sched = policy ∧
      Served filesize policy [] s.log s.shared.contents :=
  Run.served hc ⟨malloced,b₀,hinit,(reaches_sound h).execs⟩

/-- Whole-run safety of the shared buffer, for the capacities whose index sums
fit in an `int`. -/
theorem buffer_safety (hc : FitsInt policy capacity)
    (hinit : bufferInit malloced capacity policy = .done b₀)
    {s : State Tid (Buffer α) (Op α) (Done α)}
    (h : Reaches (bufferMonitor filesize) (start Tid (Op α) (Done α) b₀) s) :
    s.shared.count ≤ capacity ∧
    (∀ t req, s.pc t = .body (.put req) → s.shared.tail ∉ s.shared.live) ∧
    (∀ t, s.pc t = .body .get →
      (∀ i ∈ bufferGetReads filesize s.shared, i ∈ s.shared.live) ∧
        ∃ x b, bufferGet filesize s.shared = .done (x,b)) ∧
    (putsOf s.log : Multiset α) = (getsOf s.log : Multiset α) + (s.shared.contents : Multiset α) ∧
    (policy = .fifo → getsOf s.log <+: putsOf s.log) := by
  obtain ⟨hwf,hcap,_,hserved⟩ := reaches_refines hc hinit h
  have hready := (reaches_sound h).ready
  have hle := hwf.count_le
  refine ⟨hcap ▸ hle,fun t req ht => ?_,fun t ht => ?_,?_,?_⟩
  · have hb := hready t _ ht
    simp only [bufferMonitor,Buffer.full,beq_eq_false_iff_ne] at hb
    exact tail_not_live hwf.toWellFormed (by omega)
  · have hb := hready t _ ht
    simp only [bufferMonitor,Buffer.empty,beq_eq_false_iff_ne] at hb
    have hpos : 0 < s.shared.count := by omega
    obtain ⟨x,b,hget,_⟩ := bufferGet_takes filesize hwf hpos
    exact ⟨bufferGet_reads_live hwf hpos,x,b,hget⟩
  · rw [Multiset.coe_add,Multiset.coe_eq_coe]
    simpa using hserved.conserves
  · rintro rfl
    exact ⟨s.shared.contents,by simpa using hserved.fifo.symm⟩

theorem signalled_run :
    ∃ s : State (Fin 3) (Buffer Nat) (Op Nat) (Done Nat),
      Reaches (bufferMonitor fun _ => 0) (start (Fin 3) (Op Nat) (Done Nat)
        ⟨fun _ => 0,1,0,0,0,.fifo⟩) s ∧
      s.shared.count = 1 ∧ s.log = [.put 7] ∧
      s.pc 0 = .test .get ∧ s.pc 1 = .wait .get ∧ s.pc 2 = .idle := by
  have h0 : Reaches (bufferMonitor fun _ => 0) (start (Fin 3) (Op Nat) (Done Nat)
    ⟨fun _ => 0,1,0,0,0,.fifo⟩) _ := .refl
  have h1 := h0.tail ⟨_,.call 0 .get rfl⟩
  have h2 := h1.tail ⟨_,.acquire 0 .get rfl rfl⟩
  have h3 := h2.tail ⟨_,.wait 0 .get rfl rfl⟩
  have h4 := h3.tail ⟨_,.call 1 .get rfl⟩
  have h5 := h4.tail ⟨_,.acquire 1 .get rfl rfl⟩
  have h6 := h5.tail ⟨_,.wait 1 .get rfl rfl⟩
  have h7 := h6.tail ⟨_,.call 2 (.put 7) rfl⟩
  have h8 := h7.tail ⟨_,.acquire 2 (.put 7) rfl rfl⟩
  have h9 := h8.tail ⟨_,.pass 2 (.put 7) rfl rfl⟩
  have h10 := h9.tail ⟨_,.complete 2 (.put 7) rfl rfl (.wake 0 .get rfl rfl)⟩
  have h11 := h10.tail ⟨_,.ret 2 (.put 7) rfl⟩
  have h12 := h11.tail ⟨_,.reacquire 0 .get rfl rfl⟩
  exact ⟨_,h12,rfl,rfl,rfl,rfl,rfl⟩

theorem buffer_safety_signalled :
    ∃ s : State (Fin 3) (Buffer Nat) (Op Nat) (Done Nat),
      s.log = [.put 7] ∧ s.shared.count ≤ 1 ∧
      (putsOf s.log : Multiset Nat) =
        (getsOf s.log : Multiset Nat) + (s.shared.contents : Multiset Nat) ∧
      getsOf s.log <+: putsOf s.log := by
  obtain ⟨s,hs,_,hlog,_⟩ := signalled_run
  obtain ⟨hcount,_,_,hconserves,hpre⟩ := buffer_safety
    (fitsInt_of_le .fifo 1 (by decide) (by decide)) rfl hs
  exact ⟨s,hlog,hcount,hconserves,hpre rfl⟩

/-- With the largest capacity, of the sizes 3, 5 and 4 the last one is lost,
and the buffer holds 5 twice. -/
theorem put_lost : ∃ s : State (Fin 1) (Buffer Int) (Op Int) (Done Int),
    bufferInit (fun _ => 0) (2^31-1) .sff = .done (noneWaits fun _ => (0 : Int)) ∧
    Reaches (bufferMonitor id) (start (Fin 1) (Op Int) (Done Int) (noneWaits fun _ => 0)) s ∧
    s.log = [.put 3,.put 5,.got 3,.put 4] ∧ s.shared.contents = [5,5] ∧
    (putsOf s.log : Multiset Int) ≠
      (getsOf s.log : Multiset Int) + (s.shared.contents : Multiset Int) := by
  obtain ⟨he,_⟩ := overflow_execs id (fun _ => 0) 3 5 4 (by decide)
  have hcontents := oneLost_contents (fun _ => 0) (3 : Int) 5 4
  refine ⟨_,bufferInit_done _ (by decide) .sff,he.reaches 0,rfl,hcontents,?_⟩
  rw [hcontents]
  decide

end Safety

section Wakeups

variable {α : Type} {filesize : α → Int}

/-- The operations waiting on a condition that could go ahead. -/
def available : Cond → Buffer α → Nat
  | .notEmpty, b => b.count
  | .notFull, b => b.cap-b.count

theorem body_count {b b' : Buffer α} {op : Op α} {r : Done α}
    (hr : (bufferMonitor filesize).body op b = some (r,b')) :
    b'.cap = b.cap ∧ ((∃ req, op = .put req ∧ b'.count = b.count+1) ∨
      (op = .get ∧ b'.count = b.count-1)) := by
  cases op with
  | put req =>
    cases hr
    exact ⟨rfl,.inl ⟨req,rfl,rfl⟩⟩
  | get =>
    obtain ⟨⟨x,c⟩,hget,hp⟩ := Option.map_eq_some_iff.mp hr
    cases hp
    cases hs : b.sched with
    | fifo =>
      simp only [bufferGet_fifo filesize hs,Exec.result,Option.some.injEq,Prod.mk.injEq] at hget
      obtain ⟨_,rfl⟩ := hget
      exact ⟨rfl,.inr ⟨rfl,rfl⟩⟩
    | sff =>
      simp only [bufferGet,hs] at hget
      cases hloop : b.compact filesize with
      | done s =>
        rw [hloop] at hget
        cases hget
        exact ⟨rfl,.inr ⟨rfl,rfl⟩⟩
      | abort =>
        rw [hloop] at hget
        cases hget
      | unfinished =>
        rw [hloop] at hget
        cases hget

theorem body_count_le {b b' : Buffer α} {op : Op α} {r : Done α} (h : b.count ≤ b.cap)
    (hb : (bufferMonitor filesize).blocked op b = false)
    (hr : (bufferMonitor filesize).body op b = some (r,b')) : b'.count ≤ b'.cap := by
  obtain ⟨hcap,⟨req,rfl,hcount⟩ | ⟨rfl,hcount⟩⟩ := body_count hr
  · have hne : b.count ≠ b.cap := by simpa [bufferMonitor,Buffer.full] using hb
    omega
  · omega

theorem bufferMonitor_unitSignals :
    UnitSignals (bufferMonitor filesize) (fun b => b.count ≤ b.cap) available where
  blocked := by
    intro op b _ hb
    cases op with
    | put req =>
      have heq : b.count = b.cap := by simpa [bufferMonitor,Buffer.full] using hb
      simp [bufferMonitor,available,heq]
    | get => simpa [bufferMonitor,Buffer.empty,available] using hb
  body := by
    intro op b b' r h hb hr c
    have hle := body_count_le h hb hr
    obtain ⟨hcap,⟨req,rfl,hcount⟩ | ⟨rfl,hcount⟩⟩ := body_count hr
    · cases c with
      | notEmpty => change b'.count + 0 ≤ b.count + 1; omega
      | notFull => change b'.cap - b'.count + 1 ≤ b.cap - b.count + 0; omega
    · have hne : b.count ≠ 0 := by simpa [bufferMonitor,Buffer.empty] using hb
      cases c with
      | notEmpty => change b'.count + 1 ≤ b.count + 0; omega
      | notFull => change b'.cap - b'.count + 0 ≤ b.cap - b.count + 1; omega

variable {Tid : Type} [DecidableEq Tid] [Fintype Tid] {capacity : Nat} {policy : SchedPolicy}
  {malloced : Int → α} {b₀ : Buffer α}

omit [DecidableEq Tid] in
theorem running_zero (c : Cond) {s : State Tid (Buffer α) (Op α) (Done α)}
    (hx : Exclusive s) (ho : s.owner = none) :
    tally (running (bufferMonitor filesize) c) s.pc = 0 := by
  by_contra hpos
  obtain ⟨t,ht⟩ := tally_pos.mp (Nat.pos_of_ne_zero hpos)
  have hout : (s.pc t).inside = false := by
    rw [← Bool.not_eq_true,← hx t,ho]
    simp
  cases hp : s.pc t with
  | test op => simp [hp,Pc.inside] at hout
  | body op => simp [hp,Pc.inside] at hout
  | _ => simp [hp,running] at ht

/-- No wakeup is lost: while somebody sleeps on a condition, no more
operations could go ahead than there are threads on their way to do one, and
producers and consumers never all wait for each other. -/
theorem no_lost_wakeup (hc : 0 < capacity)
    (hinit : bufferInit malloced capacity policy = .done b₀)
    {s : State Tid (Buffer α) (Op α) (Done α)}
    (h : Reaches (bufferMonitor filesize) (start Tid (Op α) (Done α) b₀) s) :
    s.shared.cap = capacity ∧
    (∀ c, 0 < tally (asleep (bufferMonitor filesize) c) s.pc →
      available c s.shared ≤ tally (woken (bufferMonitor filesize) c) s.pc +
        tally (running (bufferMonitor filesize) c) s.pc) ∧
    (s.owner = none → ∀ c, 0 < tally (asleep (bufferMonitor filesize) c) s.pc →
      available c s.shared ≤ tally (woken (bufferMonitor filesize) c) s.pc) ∧
    (∀ c t, asleep (bufferMonitor filesize) c (s.pc t) = true → 0 < available c s.shared →
      ∃ u, woken (bufferMonitor filesize) c (s.pc u) = true ∨
        running (bufferMonitor filesize) c (s.pc u) = true) ∧
    (∀ p req c, s.pc p = .wait (.put req) → s.pc c = .wait .get →
      ∃ t, ∀ op, s.pc t ≠ .wait op) := by
  have hx := (reaches_sound h).exclusive
  rw [bufferInit_done malloced hc policy] at hinit
  cases hinit
  have hcap : s.shared.cap = capacity :=
    (reaches_sound h).execs.invariant (I := fun b => b.cap = capacity)
      (fun op b r b' hb _ hr => (body_count hr).1.trans hb) rfl
  have hall := reaches_noLostWakeup bufferMonitor_unitSignals (Nat.zero_le _)
    (fun op b r b' hb hbl hr => body_count_le hb hbl hr) h
  have hway : ∀ c t, asleep (bufferMonitor filesize) c (s.pc t) = true →
      0 < available c s.shared → ∃ u, woken (bufferMonitor filesize) c (s.pc u) = true ∨
        running (bufferMonitor filesize) c (s.pc u) = true := by
    intro c t ht hpos
    have hle := hall c (tally_pos.mpr ⟨t,ht⟩)
    by_cases hw : 0 < tally (woken (bufferMonitor filesize) c) s.pc
    · obtain ⟨u,hu⟩ := tally_pos.mp hw
      exact ⟨u,.inl hu⟩
    · obtain ⟨u,hu⟩ := tally_pos.mp
        (show 0 < tally (running (bufferMonitor filesize) c) s.pc by omega)
      exact ⟨u,.inr hu⟩
  refine ⟨hcap,hall,?_,hway,?_⟩
  · intro ho c hpos
    have hle := hall c hpos
    rwa [running_zero c hx ho] at hle
  · intro p req c hp hcc
    -- the buffer is not empty and full at once, so somebody is on the way
    have hsome : 0 < available .notEmpty s.shared ∨ 0 < available .notFull s.shared := by
      simp only [available]
      omega
    have hu : ∃ d u, woken (bufferMonitor filesize) d (s.pc u) = true ∨
        running (bufferMonitor filesize) d (s.pc u) = true := by
      rcases hsome with hpos | hpos
      · exact ⟨_,hway .notEmpty c (by rw [hcc]; rfl) hpos⟩
      · exact ⟨_,hway .notFull p (by rw [hp]; rfl) hpos⟩
    obtain ⟨d,u,hu⟩ := hu
    refine ⟨u,fun op hop => ?_⟩
    rw [hop] at hu
    simp [woken,running] at hu

theorem no_lost_wakeup_signalled :
    ∃ s : State (Fin 3) (Buffer Nat) (Op Nat) (Done Nat),
      s.pc 1 = .wait .get ∧ s.shared.count = 1 ∧
      ∃ u, woken (bufferMonitor fun _ => 0) .notEmpty (s.pc u) = true ∨
        running (bufferMonitor fun _ => 0) .notEmpty (s.pc u) = true := by
  obtain ⟨s,hs,hcount,_,_,h1,_⟩ := signalled_run
  obtain ⟨_,_,_,hway,_⟩ := no_lost_wakeup (by decide : 0 < 1) rfl hs
  refine ⟨s,h1,hcount,hway .notEmpty 1 ?_ ?_⟩
  · rw [h1]
    rfl
  · change 0 < s.shared.count
    omega

/-- One request is pending, one consumer sleeps, and none is woken: the woken
one has the lock again. -/
theorem one_pending_none_woken :
    ∃ s : State (Fin 3) (Buffer Nat) (Op Nat) (Done Nat),
      Reaches (bufferMonitor fun _ => 0) (start (Fin 3) (Op Nat) (Done Nat)
        ⟨fun _ => 0,1,0,0,0,.fifo⟩) s ∧
      0 < tally (asleep (bufferMonitor fun _ => 0) .notEmpty) s.pc ∧
      ¬ s.shared.count ≤ tally (woken (bufferMonitor fun _ => 0) .notEmpty) s.pc := by
  obtain ⟨s,hs,hcount,_,h0,h1,h2⟩ := signalled_run
  refine ⟨s,hs,tally_pos.mpr ⟨1,by rw [h1]; rfl⟩,?_⟩
  have hnone : ¬ 0 < tally (woken (bufferMonitor fun _ => 0) .notEmpty) s.pc := by
    rw [tally_pos]
    rintro ⟨t,ht⟩
    match t with
    | 0 => simp [h0,woken] at ht
    | 1 => simp [h1,woken] at ht
    | 2 => simp [h2,woken] at ht
  omega

end Wakeups

end ConcurrentWebServer.Queueing
