import ConcurrentWebServer.BufferOperations
set_option autoImplicit false

/-! Which of the sums that `buffer_put` and `buffer_get` make of their indices
are values of an `int`. -/

namespace ConcurrentWebServer.Queueing
open Execution CircularArray MesaMonitor

section Sums

variable {α : Type}

def bufferPutSums (b : Buffer α) : List Int := [b.tail+1,b.count+1]

variable (filesize : α → Int)

/-- The sums of `buffer_get`, `i` running over the rounds of the scan and `next`
over those of the compaction loop. -/
def bufferGetSums (b : Buffer α) : List Int :=
  match b.sched with
  | .fifo => [b.head+1,b.count-1]
  | .sff =>
      (List.range' 1 (b.count-1)).flatMap (fun i : Nat => [(b.head+i : Int),(i+1 : Int)]) ++
        ([b.head+(b.scan filesize).minLogical,b.minPhys filesize+1] : List Int) ++
        ((b.shiftStart filesize).reads b.cap b.tail (2*b.cap)).map (fun next => next+1) ++
        [b.tail-1,b.tail-1+b.cap,b.count-1]

theorem reads_range {b : Buffer α} (h : b.WellFormed) (fuel : Nat) {s : Shift α}
    (h₀ : 0 ≤ s.next) (hs : s.next < b.cap) :
    ∀ next ∈ s.reads b.cap b.tail fuel, 0 ≤ next ∧ next < b.cap := by
  have hpos := h.cap_pos
  induction fuel generalizing s with
  | zero => simp [Shift.reads]
  | succ fuel ih =>
    intro next hn
    unfold Shift.reads at hn
    split at hn
    · cases List.mem_cons.mp hn with
      | inl he => exact he ▸ ⟨h₀,hs⟩
      | inr hr =>
        have hstep : (s.step b.cap).next = (s.next+1) % b.cap := h.next_eq h₀ hs
        refine ih ?_ ?_ next hr
        · rw [hstep]
          exact Int.emod_nonneg _ (by omega)
        · rw [hstep]
          exact Int.emod_lt_of_pos _ (by omega)
    · cases hn

variable {filesize} {b : Buffer α}

theorem putSums_inInt (h : b.WellFormed) (hc : b.count < b.cap) :
    ∀ z ∈ bufferPutSums b, InInt z := by
  have hcap := h.cap_lt
  have h₀ := h.tail_nonneg
  have htail := h.tail_lt
  simp only [bufferPutSums,List.mem_cons,List.not_mem_nil,or_false,InInt]
  intro z hz
  omega

/-- Under SFF the only sum to leave the range is `tail - 1 + cap`. -/
theorem getSums_inInt (h : b.WellFormed) (hc : 0 < b.count)
    (hhead : b.sched = .sff → b.head = 0) :
    (∀ z ∈ bufferGetSums filesize b, InInt z) ↔ b.sched = .fifo ∨ b.tail+b.cap ≤ 2^31 := by
  have hcap := h.cap_lt
  have hh₀ := h.head_nonneg
  have hhl := h.head_lt
  have ht₀ := h.tail_nonneg
  have htl := h.tail_lt
  have hle := h.count_le
  cases hs : b.sched with
  | fifo =>
    simp only [bufferGetSums,hs,List.mem_cons,List.not_mem_nil,or_false,InInt,true_or,iff_true]
    intro z hz
    omega
  | sff =>
    have h0 := hhead hs
    have hmin := scan_lt filesize hc
    -- with the head at 0 the physical slot is the logical one
    have hphys : b.minPhys filesize = (b.scan filesize).minLogical := by
      rw [Buffer.minPhys,h0,int_tmod (by omega) (by omega),Int.emod_eq_of_lt (by omega) (by omega)]
      omega
    have hnext : (b.shiftStart filesize).next = (b.minPhys filesize+1) % b.cap :=
      h.next_eq (by omega) (by omega)
    have hreads := reads_range h (2*b.cap) (s := b.shiftStart filesize)
      (by rw [hnext]; exact Int.emod_nonneg _ (by omega))
      (by rw [hnext]; exact Int.emod_lt_of_pos _ (by omega))
    simp only [reduceCtorEq,false_or]
    constructor
    · intro hz
      have hlast := hz (b.tail-1+b.cap) (by simp [bufferGetSums,hs])
      unfold InInt at hlast
      omega
    · intro hlast z hz
      simp only [bufferGetSums,hs,List.mem_append,List.mem_flatMap,List.mem_map,List.mem_cons,
        List.not_mem_nil,or_false,List.mem_range'_1] at hz
      unfold InInt
      rcases hz with ((⟨i,hi,hz⟩ | hz) | ⟨next,hn,rfl⟩) | hz
      · omega
      · omega
      · have hlt := hreads next hn
        omega
      · omega

end Sums

section Runs

variable {α : Type} {filesize : α → Int}

theorem execs_head {b b' : Buffer α} {es : List (Done α)}
    (h : Execs (bufferMonitor filesize) b es b') (hs : b.sched = .sff) :
    b'.sched = .sff ∧ b'.head = b.head := by
  refine h.invariant (I := fun c => c.sched = .sff ∧ c.head = b.head) ?_ ⟨hs,rfl⟩
  intro op c r d hc _ hr
  cases op with
  | put req =>
    cases hr
    exact hc
  | get =>
    obtain ⟨⟨x,d'⟩,hget,hrd⟩ := Option.map_eq_some_iff.mp hr
    cases hrd
    simp only [bufferGet,hc.1] at hget
    cases hloop : c.compact filesize with
    | done s =>
      rw [hloop] at hget
      cases hget
      exact ⟨rfl,hc.2⟩
    | abort =>
      rw [hloop] at hget
      cases hget
    | unfinished =>
      rw [hloop] at hget
      cases hget

theorem Run.head {capacity : Nat} {es : List (Done α)} {b : Buffer α} (hc : 0 < capacity)
    (h : Run filesize capacity .sff es b) : b.head = 0 := by
  obtain ⟨malloced,b₀,hinit,he⟩ := h
  rw [bufferInit_done malloced hc] at hinit
  cases hinit
  exact (execs_head he rfl).2

theorem exists_run_count [Inhabited α] (filesize : α → Int) {capacity : Nat} (hc : 0 < capacity)
    (hcap : capacity < 2^31) (policy : SchedPolicy) {n : Nat} (hn : n ≤ capacity) :
    ∃ es b, Run filesize capacity policy es b ∧ b.WellFormed ∧ b.cap = capacity ∧
      b.sched = policy ∧ b.head = 0 ∧ b.count = n := by
  induction n with
  | zero =>
    exact ⟨[],_,⟨fun _ => default,_,bufferInit_done _ hc policy,.nil⟩,
      wellFormed_init _ hc hcap policy,rfl,rfl,rfl,rfl⟩
  | succ n ih =>
    obtain ⟨es,b,⟨malloced,b₀,hinit,he⟩,hwf,hcapb,hsched,hhead,hcount⟩ := ih (by omega)
    have hroom : b.full = false := by
      rw [Buffer.full,beq_eq_false_iff_ne]
      omega
    exact ⟨_,_,⟨malloced,b₀,hinit,execs_put he hroom default⟩,
      wellFormed_put hwf (by omega) default,hcapb,hsched,hhead,by simp [bufferPut,hcount]⟩

theorem exists_run_tail [Inhabited α] (filesize : α → Int) {capacity n : Nat} (hn : 0 < n)
    (hcap : n < capacity) (hlt : capacity < 2^31) :
    ∃ es b, Run filesize capacity .sff es b ∧ b.WellFormed ∧ b.sched = .sff ∧
      b.cap = capacity ∧ b.tail = n ∧ 0 < b.count ∧ b.empty = false := by
  have hc : 0 < capacity := by omega
  obtain ⟨es,b,hrun,hwf,hcapb,hsched,hhead,hcount⟩ :=
    exists_run_count filesize hc hlt .sff hcap.le
  have hempty : b.empty = false := by
    rw [Buffer.empty,beq_eq_false_iff_ne]
    omega
  refine ⟨es,b,hrun,hwf,hsched,hcapb,?_,by omega,hempty⟩
  rw [hwf.tail_eq,hhead,hcapb,hcount,zero_add,Int.emod_eq_of_lt (by omega) (by omega)]

def SumsFit (filesize : α → Int) (capacity : Nat) (policy : SchedPolicy) : Prop :=
  ∀ es b, Run filesize capacity policy es b →
    (b.full = false → ∀ z ∈ bufferPutSums b, InInt z) ∧
      (b.empty = false → ∀ z ∈ bufferGetSums filesize b, InInt z)

/-- The index arithmetic stays in the range of `int` under FIFO, and under SFF
up to a capacity of 2^30. -/
theorem sums_fit (filesize : α → Int) [Inhabited α] (capacity : Nat) (policy : SchedPolicy)
    (hc : 0 < capacity) (hcap : capacity < 2^31) :
    SumsFit filesize capacity policy ↔ policy = .fifo ∨ capacity ≤ 2^30 := by
  constructor
  · intro h
    cases policy with
    | fifo => exact .inl rfl
    | sff =>
      right
      by_contra hbig
      have hroom : 2^31+1-capacity < capacity := by omega
      obtain ⟨es,b,hrun,hwf,hsched,hcapb,htail,hcount,hempty⟩ :=
        exists_run_tail filesize (by omega) hroom hcap
      have hsums := (getSums_inInt hwf hcount fun _ => hrun.head hc).mp ((h es b hrun).2 hempty)
      rw [hsched] at hsums
      cases hsums with
      | inl he => cases he
      | inr hle => omega
  · intro hok es b hrun
    obtain ⟨hsound,hcapb,hsched,_⟩ := hrun.served ⟨hc,hcap,hok⟩
    have hwf := hsound.toWellFormed
    have hle := hwf.count_le
    have htl := hwf.tail_lt
    constructor
    · intro hfull
      rw [Buffer.full,beq_eq_false_iff_ne] at hfull
      exact putSums_inInt hwf (by omega)
    · intro hempty
      rw [Buffer.empty,beq_eq_false_iff_ne] at hempty
      refine (getSums_inInt hwf (by omega) ?_).mpr ?_
      · intro hs
        rw [hsched] at hs
        subst hs
        exact hrun.head hc
      · rw [hsched]
        exact hok.imp_right fun hsmall => by omega

theorem sums_fit_default : SumsFit (α := Int) id 16 .sff :=
  (sums_fit id 16 .sff (by decide) (by decide)).mpr (.inr (by decide))

/-- With the largest capacity, `tail - 1 + cap` is 2^31 once two requests are
pending. -/
theorem two_pending_overflow :
    ¬ SumsFit (α := Int) id (2^31-1) .sff ∧
    ∃ es b, Run (α := Int) id (2^31-1) .sff es b ∧ b.empty = false ∧
      2^31 ∈ bufferGetSums id b := by
  obtain ⟨es,b,hrun,_,hsched,hcap,htail,_,hempty⟩ :=
    exists_run_tail (id : Int → Int) (by decide : 0 < 2) (by decide : 2 < 2^31-1) (by decide)
  have hsum : 2^31 ∈ bufferGetSums id b := by simp [bufferGetSums,hsched,htail,hcap]
  refine ⟨fun h => ?_,es,b,hrun,hempty,hsum⟩
  have hfits := ((h es b hrun).2 hempty) _ hsum
  exact absurd hfits.2 (by decide)

end Runs

end ConcurrentWebServer.Queueing
