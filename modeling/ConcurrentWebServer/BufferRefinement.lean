import ConcurrentWebServer.BufferModel
import ConcurrentWebServer.LeastFirst
set_option autoImplicit false

/-! The circular buffer represents a list of pending requests. -/

namespace ConcurrentWebServer.Queueing
open Execution CircularArray LeastFirst

/-- The capacities for which no sum of the indices leaves the range of `int`. -/
structure FitsInt (policy : SchedPolicy) (capacity : Nat) : Prop where
  pos : 0 < capacity
  lt : capacity < 2^31
  small : policy = .fifo ∨ capacity ≤ 2^30

theorem fitsInt_of_le (policy : SchedPolicy) (capacity : Nat) (hpos : 0 < capacity)
    (hle : capacity ≤ 2^30) : FitsInt policy capacity :=
  ⟨hpos,by omega,.inr hle⟩

theorem int_tmod {z : Int} (h₀ : 0 ≤ z) (h : z < 2^31) (cap : Nat) :
    (int z).tmod cap = z % cap := by
  rw [int_eq ⟨by omega,h⟩,Int.tmod_eq_emod_of_nonneg h₀]

section Refinement

variable {α : Type}

structure Buffer.WellFormed (b : Buffer α) : Prop where
  cap_lt : b.cap < 2^31
  head_nonneg : 0 ≤ b.head
  head_lt : b.head < b.cap
  tail_nonneg : 0 ≤ b.tail
  tail_lt : b.tail < b.cap
  count_le : b.count ≤ b.cap
  tail_eq : b.tail = (b.head+b.count) % b.cap

structure Buffer.Sound (b : Buffer α) : Prop extends b.WellFormed where
  fits : b.sched = .fifo ∨ b.cap ≤ 2^30

def Buffer.contents (b : Buffer α) : List α := view b.slots b.cap b.head b.count

def Buffer.live (b : Buffer α) : List Int := cells b.cap b.head b.count

@[simp] theorem Buffer.contents_length (b : Buffer α) : b.contents.length = b.count := by
  simp [Buffer.contents]

theorem bufferInit_done (malloced : Int → α) {capacity : Nat} (h : 0 < capacity)
    (policy : SchedPolicy) :
    bufferInit malloced capacity policy = .done ⟨malloced,capacity,0,0,0,policy⟩ := by
  simp [bufferInit,h]

theorem wellFormed_init (malloced : Int → α) {capacity : Nat} (h : 0 < capacity)
    (hlt : capacity < 2^31) (policy : SchedPolicy) :
    (⟨malloced,capacity,0,0,0,policy⟩ : Buffer α).WellFormed :=
  ⟨hlt,le_refl _,Int.ofNat_lt.mpr h,le_refl _,Int.ofNat_lt.mpr h,Nat.zero_le _,by simp⟩

theorem sound_init (malloced : Int → α) {capacity : Nat} {policy : SchedPolicy}
    (h : FitsInt policy capacity) :
    (⟨malloced,capacity,0,0,0,policy⟩ : Buffer α).Sound :=
  ⟨wellFormed_init malloced h.pos h.lt policy,h.small⟩

theorem Buffer.WellFormed.cap_pos {b : Buffer α} (h : b.WellFormed) : 0 < b.cap := by
  have h₀ := h.head_nonneg
  have hlt := h.head_lt
  omega

theorem Buffer.WellFormed.next_eq {b : Buffer α} (h : b.WellFormed) {z : Int} (h₀ : 0 ≤ z)
    (hz : z < b.cap) : (int (z+1)).tmod b.cap = (z+1) % b.cap := by
  have hcap := h.cap_lt
  exact int_tmod (by omega) (by omega) b.cap

theorem wellFormed_put {b : Buffer α} (h : b.WellFormed) (hc : b.count < b.cap) (req : α) :
    (bufferPut b req).WellFormed := by
  have hnext := h.next_eq h.tail_nonneg h.tail_lt
  refine ⟨h.cap_lt,h.head_nonneg,h.head_lt,?_,?_,hc,?_⟩
  · change 0 ≤ (int (b.tail+1)).tmod b.cap
    rw [hnext]
    exact Int.emod_nonneg _ (by have := h.cap_pos; omega)
  · change (int (b.tail+1)).tmod b.cap < b.cap
    rw [hnext]
    exact Int.emod_lt_of_pos _ (by have := h.cap_pos; omega)
  · change (int (b.tail+1)).tmod b.cap = (b.head+(b.count+1 : Nat)) % b.cap
    rw [hnext,h.tail_eq]
    exact cell_succ b.cap b.head b.count

theorem sound_put {b : Buffer α} (h : b.Sound) (hc : b.count < b.cap) (req : α) :
    (bufferPut b req).Sound :=
  ⟨wellFormed_put h.toWellFormed hc req,h.fits⟩

theorem contents_put {b : Buffer α} (h : b.WellFormed) (hc : b.count < b.cap) (req : α) :
    (bufferPut b req).contents = b.contents ++ [req] := by
  simp only [Buffer.contents,bufferPut]
  rw [h.tail_eq]
  exact view_push b.slots hc req

theorem tail_not_live {b : Buffer α} (h : b.WellFormed) (hc : b.count < b.cap) :
    b.tail ∉ b.live := by
  rw [h.tail_eq]
  exact cell_count_not_mem hc

def Buffer.popped (b : Buffer α) : Buffer α :=
  { b with head := (int (b.head+1)).tmod b.cap, count := b.count-1 }

variable (filesize : α → Int)

theorem bufferGet_fifo {b : Buffer α} (hs : b.sched = .fifo) :
    bufferGet filesize b = .done (b.slots b.head,b.popped) := by
  simp [bufferGet,hs,Buffer.popped]

theorem wellFormed_popped {b : Buffer α} (h : b.WellFormed) (hc : 0 < b.count) :
    b.popped.WellFormed := by
  have hle := h.count_le
  have hpos := h.cap_pos
  have hnext := h.next_eq h.head_nonneg h.head_lt
  refine ⟨h.cap_lt,?_,?_,h.tail_nonneg,h.tail_lt,by simp only [Buffer.popped]; omega,?_⟩
  · change 0 ≤ (int (b.head+1)).tmod b.cap
    rw [hnext]
    exact Int.emod_nonneg _ (by omega)
  · change (int (b.head+1)).tmod b.cap < b.cap
    rw [hnext]
    exact Int.emod_lt_of_pos _ (by omega)
  · have hn := cell_next b.cap b.head (b.count-1)
    rw [Nat.sub_add_cancel hc,← hnext] at hn
    exact h.tail_eq.trans hn.symm

theorem contents_popped {b : Buffer α} (h : b.WellFormed) (hc : 0 < b.count) :
    b.contents = b.slots b.head :: b.popped.contents := by
  have hp : view b.slots b.cap b.head (b.count-1+1) =
      b.slots b.head :: view b.slots b.cap ((b.head+1) % b.cap) (b.count-1) :=
    view_pop b.slots h.head_nonneg h.head_lt
  rw [Nat.sub_add_cancel hc,← h.next_eq h.head_nonneg h.head_lt] at hp
  exact hp

theorem scan_lt {b : Buffer α} (hc : 0 < b.count) : (b.scan filesize).minLogical < b.count := by
  have hall : ∀ n, ((List.range' 1 n).foldl (b.scanStep filesize)
      ⟨0,filesize (b.slots b.head)⟩).minLogical < n+1 := by
    intro n
    induction n with
    | zero => exact Nat.zero_lt_one
    | succ n ih =>
      simp only [List.range'_1_concat,List.foldl_append,List.foldl_cons,List.foldl_nil,
        Buffer.scanStep]
      split
      · exact (by omega : 1+n < n+1+1)
      · omega
  have hlt := hall (b.count-1)
  rwa [Nat.sub_add_cancel hc] at hlt

/-- Where the tail leaves room for the sum `tail - 1 + cap`, the physical slots
of the pending requests are computed without overflow. -/
theorem phys_eq {b : Buffer α} (h : b.WellFormed) (hfit : b.tail+b.cap ≤ 2^31) {i : Nat}
    (hi : i < b.count) : (int (b.head+i)).tmod b.cap = cell b.cap b.head i := by
  have h₀ := h.head_nonneg
  have hlt := h.head_lt
  have hle := h.count_le
  have hsum : b.head+b.count ≤ b.tail+b.cap := by
    rcases Int.lt_or_le (b.head+b.count) b.cap with hin | hout
    · have htail := h.tail_nonneg
      omega
    · have hwrap : (b.head+b.count-b.cap) % b.cap = b.tail := by
        rw [Int.sub_emod_right,← h.tail_eq]
      rw [Int.emod_eq_of_lt (by omega) (by omega)] at hwrap
      omega
  exact int_tmod (by omega) (by omega) b.cap

theorem scan_rounds {b : Buffer α} (h : b.WellFormed) (hfit : b.tail+b.cap ≤ 2^31) {n : Nat}
    (hn : n < b.count) :
    let s := (List.range' 1 n).foldl (b.scanStep filesize) ⟨0,filesize (b.slots b.head)⟩
    let f := fun i => filesize (b.slots (cell b.cap b.head i))
    s.minSize = f s.minLogical ∧
      (∀ j < n+1, f s.minLogical ≤ f j) ∧ ∀ j < s.minLogical, f s.minLogical < f j := by
  intro s f
  induction n with
  | zero =>
    refine ⟨?_,fun j hj => ?_,fun j hj => absurd hj (Nat.not_lt_zero j)⟩
    · simp [s,f,cell_zero h.head_nonneg h.head_lt]
    · obtain rfl : j = 0 := by omega
      exact le_refl _
  | succ n ih =>
    obtain ⟨hsize,hle,hfirst⟩ := ih (by omega)
    have hstep := @scan_step _ _ f _ _ hle hfirst
    simp only [s,List.range'_1_concat,List.foldl_append,List.foldl_cons,List.foldl_nil]
    rw [Nat.add_comm 1 n,Buffer.scanStep,hsize,phys_eq h hfit hn]
    change _ ∧ _
    split
    · rename_i hless
      exact ⟨rfl,hstep.1 hless⟩
    · rename_i hless
      exact ⟨hsize,hstep.2 hless⟩

theorem scan_least {b : Buffer α} (h : b.WellFormed) (hfit : b.tail+b.cap ≤ 2^31)
    (hc : 0 < b.count) :
    LeastAt filesize b.contents (b.scan filesize).minLogical (b.slots (b.minPhys filesize)) := by
  obtain ⟨_,hle,hfirst⟩ := scan_rounds filesize h hfit (Nat.sub_lt hc Nat.one_pos)
  rw [Nat.sub_add_cancel hc] at hle
  have hlt := scan_lt filesize hc
  rw [Buffer.minPhys,phys_eq h hfit hlt]
  refine ⟨?_,fun y hy => ?_,fun y hy => ?_⟩
  · rw [List.getElem?_eq_getElem (by simpa using hlt)]
    simp only [Buffer.contents,view_getElem]
  · obtain ⟨j,hj,rfl⟩ := List.mem_iff_getElem.mp hy
    simp only [Buffer.contents,view_getElem]
    exact hle j (by simpa using hj)
  · obtain ⟨j,hj,rfl⟩ := List.mem_iff_getElem.mp hy
    simp only [Buffer.contents,List.getElem_take,view_getElem]
    have hjm : j < (b.scan filesize).minLogical := by
      simp only [List.length_take] at hj
      omega
    exact hfirst j hjm

/-- Before its last entry the window does not meet the index after it, even
when the buffer is full and that index is the first one again. -/
theorem cell_ne_tail {cap count i : Nat} {head : Int} (hi : 0 < i) (hic : i < count)
    (hc : count ≤ cap) (h₀ : 0 ≤ head) (hh : head < cap) :
    cell cap head i ≠ cell cap head count := by
  intro he
  rcases Nat.lt_or_ge count cap with h | h
  · have := cell_injective (by omega) h he
    omega
  · have hcap : count = cap := by omega
    have hz : cell cap head i = cell cap head 0 := by
      rw [he,hcap,cell_cap h₀ hh,cell_zero h₀ hh]
    have := cell_injective (by omega) (by omega) hz
    omega

/-- The compaction loop after `k` rounds, having started at logical position `m`. -/
structure Shifted (cap : Nat) (head : Int) (m k : Nat) (old : Int → α) (s : Shift α) : Prop where
  cur : s.cur = cell cap head (m+k)
  next : s.next = cell cap head (m+k+1)
  moved : ∀ i, m ≤ i → i < m+k → s.slots (cell cap head i) = old (cell cap head (i+1))
  kept : ∀ j, (∀ i, m ≤ i → i < m+k → cell cap head i ≠ j) → s.slots j = old j

def Buffer.shiftFrom (b : Buffer α) (m : Nat) : Shift α :=
  ⟨b.slots,(b.head+m) % b.cap,(int ((b.head+m) % b.cap+1)).tmod b.cap⟩

theorem shifted_start {b : Buffer α} (h : b.WellFormed) (m : Nat) :
    Shifted b.cap b.head m 0 b.slots (b.shiftFrom m) := by
  refine ⟨rfl,?_,fun i h₁ h₂ => by omega,fun _ _ => rfl⟩
  have hnext := h.next_eq (cell_nonneg h.cap_pos b.head m) (cell_lt h.cap_pos b.head m)
  exact hnext.trans (cell_succ b.cap b.head m)

theorem Shifted.step {b : Buffer α} (h : b.WellFormed) {m k : Nat} {old : Int → α} {s : Shift α}
    (hs : Shifted b.cap b.head m k old s) (hk : m+k+1 < b.cap) :
    Shifted b.cap b.head m (k+1) old (s.step b.cap) := by
  have hloaded : s.slots s.next = old (cell b.cap b.head (m+k+1)) := by
    rw [hs.next]
    refine hs.kept _ fun i _ hi he => ?_
    have := cell_injective (by omega) hk he
    omega
  refine ⟨hs.next,?_,fun i hmi hik => ?_,fun j hj => ?_⟩
  · change (int (s.next+1)).tmod b.cap = _
    rw [hs.next,h.next_eq (cell_nonneg h.cap_pos _ _) (cell_lt h.cap_pos _ _)]
    exact cell_succ b.cap b.head (m+k+1)
  · simp only [Shift.step,hs.cur,hloaded]
    by_cases hi : i = m+k
    · rw [hi,Function.update_self]
    · have hne : cell b.cap b.head i ≠ cell b.cap b.head (m+k) := by
        intro he
        exact hi (cell_injective (by omega) (by omega) he)
      rw [Function.update_of_ne hne]
      exact hs.moved i hmi (by omega)
  · have hne : j ≠ s.cur := by
      rw [hs.cur]
      exact (hj (m+k) (by omega) (by omega)).symm
    simp only [Shift.step]
    rw [Function.update_of_ne hne]
    exact hs.kept j fun i hmi hik => hj i hmi (by omega)

theorem shifted_iterate {b : Buffer α} (h : b.WellFormed) {m n : Nat} (hn : m+n < b.cap) :
    Shifted b.cap b.head m n b.slots ((Shift.step b.cap)^[n] (b.shiftFrom m)) := by
  induction n with
  | zero => exact shifted_start h m
  | succ n ih =>
    rw [Function.iterate_succ_apply']
    exact (ih (by omega)).step h (by omega)

theorem Shifted.test {b : Buffer α} (h : b.WellFormed) {m k : Nat} {old : Int → α} {s : Shift α}
    (hs : Shifted b.cap b.head m k old s) (hk : m+k < b.count) :
    (s.next != b.tail) = decide (m+k+1 < b.count) := by
  rw [hs.next,h.tail_eq]
  by_cases hlt : m+k+1 < b.count
  · rw [decide_eq_true hlt,bne_iff_ne]
    exact cell_ne_tail (by omega) hlt h.count_le h.head_nonneg h.head_lt
  · have hlast : m+k+1 = b.count := by omega
    rw [decide_eq_false hlt,hlast,bne_eq_false_iff_eq]
    rfl

def Buffer.compactFrom (b : Buffer α) (m fuel : Nat) : Exec (Shift α) :=
  loop (fun s => s.next != b.tail) (fun s => .done (s.step b.cap)) fuel (b.shiftFrom m)

/-- The compaction loop makes one round for each entry after the removed one. -/
theorem compactFrom_done {b : Buffer α} (h : b.WellFormed) {m : Nat} (hm : m < b.count) :
    ∃ s, Shifted b.cap b.head m (b.count-1-m) b.slots s ∧
      ∀ fuel, b.compactFrom m fuel = if b.count-1-m ≤ fuel then .done s else .unfinished := by
  have hle := h.count_le
  have hshift : ∀ k, k ≤ b.count-1-m →
      Shifted b.cap b.head m k b.slots ((Shift.step b.cap)^[k] (b.shiftFrom m)) :=
    fun k hk => shifted_iterate h (by omega)
  refine ⟨_,hshift (b.count-1-m) (Nat.le_refl _),fun fuel => ?_⟩
  refine loop_exact _ _ (fun k hk => ?_) ?_ fuel
  · rw [(hshift k (by omega)).test h (by omega)]
    exact decide_eq_true (by omega)
  · rw [(hshift _ (Nat.le_refl _)).test h (by omega)]
    exact decide_eq_false (by omega)

theorem compact_eq_compactFrom {b : Buffer α} (h : b.WellFormed) (hfit : b.tail+b.cap ≤ 2^31)
    (hc : 0 < b.count) :
    b.compact filesize = b.compactFrom (b.scan filesize).minLogical (2*b.cap) := by
  have hphys := phys_eq h hfit (scan_lt filesize hc)
  rw [Buffer.compact,Buffer.shiftStart,Buffer.minPhys,hphys]
  rfl

theorem compact_done {b : Buffer α} (h : b.WellFormed) (hfit : b.tail+b.cap ≤ 2^31) {m : Nat}
    (hm : (b.scan filesize).minLogical = m) (hmc : m < b.count) :
    ∃ s, b.compact filesize = .done s ∧ Shifted b.cap b.head m (b.count-1-m) b.slots s := by
  have hle := h.count_le
  obtain ⟨s,hshift,hloop⟩ := compactFrom_done h hmc
  refine ⟨s,?_,hshift⟩
  rw [compact_eq_compactFrom filesize h hfit (by omega),hm,hloop (2*b.cap)]
  exact if_pos (by omega)

theorem bufferGet_sff {b : Buffer α} (h : b.WellFormed) (hfit : b.tail+b.cap ≤ 2^31)
    (hs : b.sched = .sff) (hc : 0 < b.count) :
    ∃ b', bufferGet filesize b = .done (b.slots (b.minPhys filesize),b') ∧
      b'.WellFormed ∧ b'.cap = b.cap ∧ b'.sched = b.sched ∧
      b'.contents = b.contents.eraseIdx (b.scan filesize).minLogical := by
  obtain ⟨m,hm⟩ : ∃ m, (b.scan filesize).minLogical = m := ⟨_,rfl⟩
  have hlt : m < b.count := hm ▸ scan_lt filesize hc
  obtain ⟨s,hloop,hshift⟩ := compact_done filesize h hfit hm hlt
  have hle := h.count_le
  have hpos := h.cap_pos
  have htail : (int (b.tail-1+b.cap)).tmod b.cap = cell b.cap b.head (b.count-1) := by
    have hp := cell_pred b.cap b.head (b.count-1)
    have ht := h.tail_nonneg
    rw [Nat.sub_add_cancel hc] at hp
    rw [int_tmod (by omega) (by omega),h.tail_eq]
    exact hp
  refine ⟨{ b with slots := s.slots, tail := cell b.cap b.head (b.count-1),
                   count := b.count-1 },?_,?_,rfl,rfl,?_⟩
  · simp only [bufferGet,hs,hloop,done_bind,htail,pure_eq]
  · exact ⟨h.cap_lt,h.head_nonneg,h.head_lt,cell_nonneg hpos _ _,cell_lt hpos _ _,
      by simp only; omega,rfl⟩
  · rw [hm]
    have hbefore : ∀ i < m, s.slots (cell b.cap b.head i) = b.slots (cell b.cap b.head i) := by
      intro i hi
      refine hshift.kept _ fun j hmj hj hcell => ?_
      have := cell_injective (by omega) (by omega) hcell
      omega
    have he : view s.slots b.cap b.head (b.count-1) =
        (view b.slots b.cap b.head (b.count-1+1)).eraseIdx m :=
      view_erase (by omega) hbefore fun i hmi _ => hshift.moved i hmi (by omega)
    rw [Nat.sub_add_cancel hc] at he
    exact he

variable {filesize} in
/-- A sum `tail - 1 + cap` out of range leaves a wrong tail, if the loop of
`buffer_get` ends at all. -/
theorem bufferGet_overflow {b b' : Buffer α} {x : α} (h : b.WellFormed) (hs : b.sched = .sff)
    (hc : 0 < b.count) (hbig : 2^31 < b.tail+b.cap) (hget : bufferGet filesize b = .done (x,b')) :
    ¬ b'.WellFormed := by
  intro h'
  have hcap := h.cap_lt
  have htl := h.tail_lt
  simp only [bufferGet,hs] at hget
  obtain ⟨s,_,hb⟩ := bind_eq_done.mp hget
  cases hb
  have hneg : int (b.tail-1+b.cap) ≤ 0 := by
    rw [int,Int.bmod_def]
    split_ifs <;> omega
  -- the remainder of a negative number is not positive, so the new tail is 0
  have hzero : (int (b.tail-1+b.cap)).tmod b.cap = 0 := by
    have hflip := Int.tmod_nonneg (b.cap : Int) (Int.neg_nonneg_of_nonpos hneg)
    rw [Int.neg_tmod] at hflip
    exact le_antisymm (by omega) h'.tail_nonneg
  have hlast : cell b.cap b.head (b.count-1) = 0 := h'.tail_eq.symm.trans hzero
  have hsucc := cell_succ b.cap b.head (b.count-1)
  have htail : cell b.cap b.head b.count = b.tail := h.tail_eq.symm
  rw [hlast,Nat.sub_add_cancel hc,htail,Int.emod_eq_of_lt (by omega) (by omega)] at hsucc
  omega

inductive Takes : SchedPolicy → List α → α → List α → Prop where
  | fifo {x : α} {l : List α} : Takes .fifo (x :: l) x l
  | sff {l : List α} {m : Nat} {x : α} :
      LeastAt filesize l m x → Takes .sff l x (l.eraseIdx m)

theorem Buffer.Sound.fit {b : Buffer α} (h : b.Sound) (hs : b.sched = .sff) :
    b.tail+b.cap ≤ 2^31 := by
  have htl := h.tail_lt
  rcases h.fits with hf | hsmall
  · rw [hs] at hf
    cases hf
  · omega

theorem bufferGet_takes {b : Buffer α} (h : b.Sound) (hc : 0 < b.count) :
    ∃ x b', bufferGet filesize b = .done (x,b') ∧ b'.Sound ∧ b'.cap = b.cap ∧
      b'.sched = b.sched ∧ Takes filesize b.sched b.contents x b'.contents := by
  have hwf := h.toWellFormed
  cases hs : b.sched with
  | fifo =>
    refine ⟨_,b.popped,bufferGet_fifo filesize hs,⟨wellFormed_popped hwf hc,h.fits⟩,rfl,hs,?_⟩
    rw [contents_popped hwf hc]
    exact .fifo
  | sff =>
    obtain ⟨b',hget,hwf',hcap,hsched,hcontents⟩ := bufferGet_sff filesize hwf (h.fit hs) hs hc
    refine ⟨_,b',hget,⟨hwf',by rw [hcap,hsched]; exact h.fits⟩,hcap,hsched.trans hs,?_⟩
    rw [hcontents]
    exact .sff (scan_least filesize hwf (h.fit hs) hc)

theorem Takes.perm {p : SchedPolicy} {l l' : List α} {x : α} (h : Takes filesize p l x l') :
    l.Perm (x :: l') := by
  cases h with
  | fifo => exact .refl _
  | sff hm => exact hm.perm

/-- What is promised of the buffer in the state `b`: `buffer_put` appends, a
FIFO `buffer_get` takes the first entry, an SFF one the leftmost smallest and
nothing else. -/
structure RefinesList (b : Buffer α) : Prop where
  put : ∀ req, b.count < b.cap →
    (bufferPut b req).WellFormed ∧ (bufferPut b req).contents = b.contents ++ [req]
  fifo : b.sched = .fifo → 0 < b.count →
    ∃ x b', bufferGet filesize b = .done (x,b') ∧ b'.WellFormed ∧ b.contents = x :: b'.contents
  sff : b.sched = .sff → 0 < b.count →
    ∃ m x b', bufferGet filesize b = .done (x,b') ∧ b'.WellFormed ∧
      b.contents[m]? = some x ∧ (∀ y ∈ b.contents, filesize x ≤ filesize y) ∧
      (∀ y ∈ b.contents.take m, filesize x < filesize y) ∧
      b'.contents = b.contents.eraseIdx m

theorem refinesList_iff {b : Buffer α} (h : b.WellFormed) :
    RefinesList filesize b ↔ b.sched = .fifo ∨ b.count = 0 ∨ b.tail+b.cap ≤ 2^31 := by
  constructor
  · intro hr
    cases hs : b.sched with
    | fifo => exact .inl rfl
    | sff =>
      by_contra! hbad
      obtain ⟨_,hcount,hbig⟩ := hbad
      have hc : 0 < b.count := Nat.pos_of_ne_zero hcount
      obtain ⟨m,x,b',hget,hwf,_⟩ := hr.sff hs hc
      exact bufferGet_overflow h hs hc hbig hget hwf
  · intro hok
    refine ⟨fun req hc => ⟨wellFormed_put h hc req,contents_put h hc req⟩,fun hs hc => ?_,
      fun hs hc => ?_⟩
    · exact ⟨_,_,bufferGet_fifo filesize hs,wellFormed_popped h hc,contents_popped h hc⟩
    · have hfit : b.tail+b.cap ≤ 2^31 := by
        rcases hok with hf | h0 | hfit
        · rw [hs] at hf
          cases hf
        · omega
        · exact hfit
      obtain ⟨b',hget,hwf,_,_,hcontents⟩ := bufferGet_sff filesize h hfit hs hc
      have hleast := scan_least filesize h hfit hc
      exact ⟨_,_,b',hget,hwf,hleast.get,hleast.le,hleast.first,hcontents⟩

def Buffer.startingAtZero (slots : Int → α) (capacity n : Nat) : Buffer α :=
  ⟨slots,capacity,n,0,n,.sff⟩

theorem startingAtZero_wellFormed (slots : Int → α) {capacity n : Nat} (hn : n < capacity)
    (hlt : capacity < 2^31) : (Buffer.startingAtZero slots capacity n).WellFormed := by
  have hmod : (n : Int) % capacity = n := Int.emod_eq_of_lt (by omega) (by omega)
  refine ⟨hlt,le_refl _,?_,Int.natCast_nonneg n,Int.ofNat_lt.mpr hn,hn.le,?_⟩
  · change (0 : Int) < capacity
    omega
  · change (n : Int) = (0+n) % capacity
    rw [zero_add,hmod]

/-- The circular buffer implements the list of pending requests in a state,
unless `tail - 1 + cap` leaves the range of `int` there. It does so in all
states of a capacity under FIFO, and under SFF up to a capacity of 2^30. -/
theorem buffer_refines_list [Inhabited α] :
    (∀ (malloced : Int → α) (capacity : Nat) (policy : SchedPolicy),
      0 < capacity → capacity < 2^31 →
      ∃ b, bufferInit malloced capacity policy = .done b ∧
        b.cap = capacity ∧ b.sched = policy ∧ b.WellFormed ∧ b.contents = []) ∧
    (∀ b : Buffer α, b.WellFormed →
      (RefinesList filesize b ↔ b.sched = .fifo ∨ b.count = 0 ∨ b.tail+b.cap ≤ 2^31)) ∧
    ∀ (capacity : Nat) (policy : SchedPolicy), 0 < capacity → capacity < 2^31 →
      ((∀ b : Buffer α, b.WellFormed → b.cap = capacity → b.sched = policy →
          RefinesList filesize b) ↔
        policy = .fifo ∨ capacity ≤ 2^30) := by
  refine ⟨fun malloced capacity policy hc hlt => ?_,fun b h => refinesList_iff filesize h,
    fun capacity policy hc hlt => ⟨fun hall => ?_,?_⟩⟩
  · exact ⟨_,bufferInit_done malloced hc policy,rfl,rfl,wellFormed_init malloced hc hlt policy,rfl⟩
  · by_contra! hbad
    obtain ⟨hsff,hbig⟩ := hbad
    have hs : SchedPolicy.sff = policy := by
      cases policy with
      | fifo => exact absurd rfl hsff
      | sff => rfl
    -- the fewest pending requests for which the sum leaves the range
    have hn : 2^31+1-capacity < capacity := by omega
    have hwf := startingAtZero_wellFormed (fun _ => (default : α)) hn hlt
    have hr := (refinesList_iff filesize hwf).mp (hall _ hwf rfl hs)
    rcases hr with hf | h0 | hfit
    · cases hf
    · change 2^31+1-capacity = 0 at h0
      omega
    · change ((2^31+1-capacity : Nat) : Int)+capacity ≤ 2^31 at hfit
      omega
  · rintro hok b h rfl rfl
    refine (refinesList_iff filesize h).mpr (hok.imp_right fun hsmall => .inr ?_)
    have htl := h.tail_lt
    omega

end Refinement

def wrappedBuffer : Buffer Int := ⟨fun i => [5,3,3].getD i.toNat 0,3,3,2,2,.sff⟩

theorem wrappedBuffer_wellFormed : wrappedBuffer.WellFormed :=
  ⟨by decide,by decide,by decide,by decide,by decide,by decide,by decide⟩

theorem wrappedBuffer_get :
    ∃ m x b', bufferGet id wrappedBuffer = .done (x,b') ∧ b'.WellFormed ∧
      wrappedBuffer.contents[m]? = some x ∧ (∀ y ∈ wrappedBuffer.contents, id x ≤ id y) ∧
      (∀ y ∈ wrappedBuffer.contents.take m, id x < id y) ∧
      b'.contents = wrappedBuffer.contents.eraseIdx m :=
  (((buffer_refines_list id).2.1 wrappedBuffer wrappedBuffer_wellFormed).mpr
    (.inr (.inr (by decide)))).sff rfl (by decide)

def twoPending : Buffer Int := .startingAtZero (fun i => [5,3].getD i.toNat 0) (2^31-1) 2

/-- The second request is the smaller one, and taking it leaves a tail of -1. -/
theorem two_pending_wrong_tail :
    twoPending.WellFormed ∧ twoPending.contents = [5,3] ∧
      bufferGet id twoPending = .done (3,{ twoPending with tail := -1, count := 1 }) ∧
      ¬ RefinesList id twoPending := by
  have hwf : twoPending.WellFormed := startingAtZero_wellFormed _ (by decide) (by decide)
  have hget : bufferGet id twoPending = .done (3,{ twoPending with tail := -1, count := 1 }) := by
    -- the last entry is removed, so the compaction loop makes no round
    have hloop : twoPending.compact id = .done (twoPending.shiftStart id) :=
      loop_stop _ _ (by decide) _
    change (twoPending.compact id >>= _) = _
    rw [hloop]
    rfl
  refine ⟨hwf,by decide,hget,fun hr => ?_⟩
  have hfit := (refinesList_iff id hwf).mp hr
  revert hfit
  decide

end ConcurrentWebServer.Queueing
