import ConcurrentWebServer.RequestOutcomes
import ConcurrentWebServer.SmallestFirst
set_option autoImplicit false

/-! Smallest file first by the `filesize` of a request, which is the size of
the file cast to `int`, and smallest file first by the size itself. -/

namespace ConcurrentWebServer.Queueing
open CStrings Execution LeastFirst MesaMonitor Requests

section Keys

variable {β : Type}

def SmallestFirst (size : β → Int) (es : List (Done (Stamped β))) : Prop :=
  ∀ pre rest x y, es = pre ++ .got x :: rest → Pending pre y → size x.req ≤ size y.req

/-- All runs on the requests of `A` serve the smallest first. -/
def ServesSmallest (key size : β → Int) (A : β → Prop) (capacity : Nat) : Prop :=
  ∀ es b, Run (fun x : Stamped β => key x.req) capacity .sff es b → Arrivals es →
    (∀ x, .put x ∈ es → A x.req) → SmallestFirst size es

variable {key size : β → Int} {A : β → Prop} {capacity : Nat}

theorem Run.cut {α : Type} {k : α → Int} {policy : SchedPolicy} {es fs : List (Done α)}
    {b : Buffer α} (h : Run k capacity policy (es ++ fs) b) :
    ∃ c, Run k capacity policy es c := by
  obtain ⟨malloced,b₀,hinit,he⟩ := h
  obtain ⟨c,hc,_⟩ := he.cut
  exact ⟨c,malloced,b₀,hinit,hc⟩

theorem Run.capacity_pos {α : Type} {k : α → Int} {policy : SchedPolicy} {es : List (Done α)}
    {b : Buffer α} (h : Run k capacity policy es b) : 0 < capacity := by
  obtain ⟨malloced,b₀,hinit,_⟩ := h
  by_contra hc
  simp [bufferInit,hc] at hinit

theorem Run.fitsInt {α : Type} {k : α → Int} {policy : SchedPolicy} {es : List (Done α)}
    {b : Buffer α} (h : Run k capacity policy es b) (hsmall : capacity ≤ 2^30) :
    FitsInt policy capacity :=
  ⟨h.capacity_pos,by omega,.inr hsmall⟩

theorem servesSmallest_one (h : capacity ≤ 1) : ServesSmallest key size A capacity := by
  rintro es b hrun ha _ pre rest x y rfl hy
  have hc := hrun.fitsInt (by omega)
  obtain ⟨_,_,_,hs⟩ := hrun.served hc
  have hx := hs.got_pending ha
  obtain ⟨c,hcut⟩ := hrun.cut
  obtain ⟨hwf,hcap,_,hpre⟩ := hcut.served hc
  have hlen : c.contents.length ≤ 1 := by
    have hle := hwf.count_le
    rw [Buffer.contents_length]
    omega
  have hx' := (hpre.pending_iff ha.left x).mp hx
  have hy' := (hpre.pending_iff ha.left y).mp hy
  obtain ⟨z,hz⟩ : ∃ z, c.contents = [z] :=
    List.length_eq_one_iff.mp (by have := List.length_pos_of_mem hx'; omega)
  rw [hz,List.mem_singleton] at hx' hy'
  rw [hx',hy']

theorem servesSmallest_of_lt (hsmall : capacity ≤ 2^30)
    (h : ∀ a b, A a → A b → size a < size b → key a < key b) :
    ServesSmallest key size A capacity := by
  rintro es b hrun ha hA pre rest x y rfl hy
  obtain ⟨_,_,_,hs⟩ := hrun.served (hrun.fitsInt hsmall)
  have hx := hs.got_pending ha
  by_contra hlt
  have hAx := hA x (List.mem_append_left _ hx.1)
  have hAy := hA y (List.mem_append_left _ hy.1)
  have hkey := h _ _ hAy hAx (by omega)
  have hne : y ≠ x := by
    rintro rfl
    omega
  have hb := hs.got_before ha hy hne
  unfold Before at hb
  omega

theorem run_first {α : Type} {k : α → Int} (hc : 1 < capacity) (hsmall : capacity ≤ 2^30) {x y : α}
    (hkey : k x ≤ k y) :
    ∃ b, Run k capacity .sff [.put x,.put y,.got x] b := by
  obtain ⟨b₀,hb₀⟩ : ∃ b₀ : Buffer α, b₀ = ⟨fun _ => x,capacity,0,0,0,.sff⟩ := ⟨_,rfl⟩
  have hinit : bufferInit (fun _ => x) capacity .sff = .done b₀ := by
    rw [hb₀]
    exact bufferInit_done _ (by omega) _
  have hwf₀ : b₀.Sound := by
    rw [hb₀]
    exact sound_init _ ⟨by omega,by omega,.inr hsmall⟩
  obtain ⟨h0,hcap,hsched⟩ : b₀.count = 0 ∧ b₀.cap = capacity ∧ b₀.sched = .sff := by
    rw [hb₀]
    exact ⟨rfl,rfl,rfl⟩
  have hroom₀ : b₀.count < b₀.cap := by omega
  have hroom₁ : (bufferPut b₀ x).count < (bufferPut b₀ x).cap := by
    change b₀.count+1 < b₀.cap
    omega
  have hwf := sound_put (sound_put hwf₀ hroom₀ x) hroom₁ y
  have hnil : b₀.contents = [] := List.length_eq_zero_iff.mp (by simpa using h0)
  have hcon := contents_put (sound_put hwf₀ hroom₀ x).toWellFormed hroom₁ y
  rw [contents_put hwf₀.toWellFormed hroom₀ x,hnil] at hcon
  obtain ⟨z,c,hget,_,_,_,htakes⟩ := bufferGet_takes k hwf (Nat.succ_pos _)
  have hsched' : (bufferPut (bufferPut b₀ x) y).sched = .sff := hsched
  rw [hcon,hsched'] at htakes
  have hz : z = x := by
    generalize c.contents = l at htakes
    cases htakes with
    | @sff _ m _ hm =>
      have hzm := hm.get
      match m with
      | 0 => simpa using hzm.symm
      | 1 =>
        have hlt := hm.first x (by simp)
        have hzy : z = y := by simpa using hzm.symm
        rw [hzy] at hlt
        omega
      | m+2 => simp at hzm
  rw [hz] at hget
  have h₁ : Execs (bufferMonitor k) b₀ [.put x] (bufferPut b₀ x) :=
    execs_put .nil (by simp [Buffer.full]; omega) x
  have h₂ := execs_put h₁ (by simp only [Buffer.full,beq_eq_false_iff_ne]; omega) y
  exact ⟨c,fun _ => x,b₀,hinit,execs_get h₂ (by simp [Buffer.empty,bufferPut]) hget⟩

theorem not_servesSmallest (hc : 1 < capacity) (hsmall : capacity ≤ 2^30) {a b : β} (ha : A a)
    (hb : A b) (hsize : size a < size b) (hkey : key b ≤ key a) :
    ¬ ServesSmallest key size A capacity := by
  intro hall
  obtain ⟨c,hrun⟩ := run_first (k := fun x : Stamped β => key x.req) hc hsmall
    (x := ⟨0,b⟩) (y := ⟨1,a⟩) hkey
  have hfirst := hall _ c hrun rfl (by simp [ha,hb]) [.put ⟨0,b⟩,.put ⟨1,a⟩] [] ⟨0,b⟩ ⟨1,a⟩ rfl
    ⟨by simp,by simp⟩
  exact absurd hfirst (not_le.mpr hsize)

theorem servesSmallest_iff (hsmall : capacity ≤ 2^30) : ServesSmallest key size A capacity ↔
    capacity ≤ 1 ∨ ∀ a b, A a → A b → size a < size b → key a < key b := by
  constructor
  · intro h
    by_contra hno
    simp only [not_or,not_le,not_forall,not_lt] at hno
    obtain ⟨hc,a,b,ha,hb,hsize,hkey⟩ := hno
    exact not_servesSmallest hc hsmall ha hb hsize hkey h
  · rintro (h | h)
    · exact servesSmallest_one h
    · exact servesSmallest_of_lt hsmall h

end Keys

section Sizes

/-- A request with a ghost: the `st_size` that the `stat` of its file gave. -/
structure Sized where
  req : Request
  stSize : Int
  deriving DecidableEq

def Parsed (fs : FileSystem) (x : Sized) : Prop :=
  ∃ f fd conn conn' sbuf, Parses fs f fd conn (some x.req,conn') ∧
    fs.stat (requestParseUri f.below (f.uri' (headLine conn.input))).2.1 = some sbuf ∧
    sbuf.stSize = x.stSize

def Offered (fs : FileSystem) (n : Int) : Prop := ∃ x, Parsed fs x ∧ x.stSize = n

theorem parsed_filesize {fs : FileSystem} {x : Sized} (h : Parsed fs x) :
    x.req.filesize = x.stSize.bmod (2^32) := by
  obtain ⟨f,fd,conn,conn',sbuf,hparse,hstat,hsize⟩ := h
  obtain ⟨_,_,hverdict,_⟩ := parses_some hparse
  obtain ⟨sbuf',hstat',_,hreq⟩ := verdict_ok hverdict
  rw [hstat] at hstat'
  cases hstat'
  rw [hreq,hsize]

/-- Where a size stands in its block of 2^32 sizes, the blocks starting at the
odd multiples of 2^31. -/
def blockOffset (n : Int) : Int := (n+2^31) % 2^32

theorem bmod_lt_iff (m n : Int) :
    m.bmod (2^32) < n.bmod (2^32) ↔ blockOffset m < blockOffset n := by
  simp only [Int.bmod_def,blockOffset]
  omega

/-- With at most 2^30 slots the smallest file is served first if there is
nothing to choose, or the sizes lie in their blocks as they lie in the whole. -/
theorem smallest_file_first (fs : FileSystem) (capacity : Nat) (hsmall : capacity ≤ 2^30) :
    ServesSmallest (fun x : Sized => x.req.filesize) Sized.stSize (Parsed fs) capacity ↔
      capacity ≤ 1 ∨
        ∀ m n, Offered fs m → Offered fs n → m < n → blockOffset m < blockOffset n := by
  rw [servesSmallest_iff hsmall]
  refine or_congr_right ⟨fun h m n hm hn hlt => ?_,fun h a b ha hb hlt => ?_⟩
  · obtain ⟨a,ha,rfl⟩ := hm
    obtain ⟨b,hb,rfl⟩ := hn
    have hkey := h a b ha hb hlt
    rwa [parsed_filesize ha,parsed_filesize hb,bmod_lt_iff] at hkey
  · rw [parsed_filesize ha,parsed_filesize hb,bmod_lt_iff]
    exact h _ _ ⟨a,ha,rfl⟩ ⟨b,hb,rfl⟩ hlt

def hugeAndTiny (n : Int) : FileSystem :=
  ⟨fun p => if p = ascii "./huge" then some ⟨0o100644,n⟩
    else if p = ascii "./tiny" then some ⟨0o100644,10⟩ else none,fun _ => none,fun _ _ => none⟩

theorem hugeAndTiny_offered {n m : Int} (h : Offered (hugeAndTiny n) m) : m = n ∨ m = 10 := by
  obtain ⟨x,⟨_,_,_,_,sbuf,_,hstat,hsize⟩,rfl⟩ := h
  simp only [hugeAndTiny] at hstat
  split_ifs at hstat <;> cases hstat <;> simp [← hsize]

theorem smallest_file_first_small :
    ServesSmallest (fun x : Sized => x.req.filesize) Sized.stSize (Parsed (hugeAndTiny 20)) 16 := by
  refine (smallest_file_first (hugeAndTiny 20) 16 (by decide)).mpr (.inr fun m n hm hn hlt => ?_)
  have hm' := hugeAndTiny_offered hm
  have hn' := hugeAndTiny_offered hn
  unfold blockOffset
  omega

/-- A file of 4 GiB is served before one of 10 bytes. -/
theorem huge_first :
    (∀ n, Offered (hugeAndTiny (2^32)) n → 0 ≤ n ∧ n < 2^63) ∧
      ¬ ServesSmallest (fun x : Sized => x.req.filesize) Sized.stSize
        (Parsed (hugeAndTiny (2^32))) 2 := by
  constructor
  · intro n hn
    rcases hugeAndTiny_offered hn with rfl | rfl
    · decide
    · decide
  · have hhuge : Parsed (hugeAndTiny (2^32)) ⟨⟨4,ascii "./huge",[],true,0⟩,2^32⟩ :=
      ⟨.zeros,4,client (ascii "GET /huge HTTP/1.0\r\n\r\n"),_,_,⟨0,rfl⟩,rfl,rfl⟩
    have htiny : Parsed (hugeAndTiny (2^32)) ⟨⟨4,ascii "./tiny",[],true,10⟩,10⟩ :=
      ⟨.zeros,4,client (ascii "GET /tiny HTTP/1.0\r\n\r\n"),_,_,⟨0,rfl⟩,rfl,rfl⟩
    exact not_servesSmallest (by omega) (by omega) htiny hhuge (by decide) (by decide)

end Sizes

end ConcurrentWebServer.Queueing
