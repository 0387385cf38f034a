import ConcurrentWebServer.BufferOperations
set_option autoImplicit false

/-! What becomes of an SFF buffer of the largest capacity when two requests
have been put and one taken: the sum `tail - 1 + cap` wraps, the next request
is stored below the array, and the one before it is served twice. -/

namespace ConcurrentWebServer.Queueing
open Execution CircularArray MesaMonitor

section Overflow

variable {α : Type} {filesize : α → Int} (malloced : Int → α) (x y z : α)

def maxCapacity : Nat := 2^31-1

def noneWaits : Buffer α := ⟨malloced,maxCapacity,0,0,0,.sff⟩

def oneWaits : Buffer α := ⟨Function.update malloced 0 x,maxCapacity,1,0,1,.sff⟩

def twoWait : Buffer α :=
  ⟨Function.update (oneWaits malloced x).slots 1 y,maxCapacity,2,0,2,.sff⟩

def wrapped : Buffer α :=
  ⟨Function.update (twoWait malloced x y).slots 0 y,maxCapacity,1,0,-1,.sff⟩

def oneLost : Buffer α :=
  ⟨Function.update (wrapped malloced x y).slots (-1) z,maxCapacity,2,0,0,.sff⟩

theorem int_tmod_max {z : Int} (h₁ : -10 ≤ z) (h₂ : z ≤ 10) :
    (int z).tmod maxCapacity = z := by
  rw [int_eq ⟨by omega,by omega⟩]
  change z.tmod 2147483647 = z
  rcases Int.lt_or_le z 0 with h | h
  · have hflip := Int.tmod_eq_of_lt (a := -z) (b := 2147483647) (by omega) (by omega)
    rw [Int.neg_tmod] at hflip
    omega
  · exact Int.tmod_eq_of_lt h (by omega)

theorem put_near {slots : Int → α} {n : Nat} {t : Int} (h₁ : -10 ≤ t+1) (h₂ : t+1 ≤ 10) :
    bufferPut ⟨slots,maxCapacity,n,0,t,.sff⟩ x =
      ⟨Function.update slots t x,maxCapacity,n+1,0,t+1,.sff⟩ := by
  simp only [bufferPut,int_tmod_max h₁ h₂]

theorem put_first : bufferPut (noneWaits malloced) x = oneWaits malloced x :=
  put_near x (by decide) (by decide)

theorem put_second : bufferPut (oneWaits malloced x) y = twoWait malloced x y :=
  put_near y (by decide) (by decide)

theorem put_third : bufferPut (wrapped malloced x y) z = oneLost malloced x y z :=
  put_near z (by decide) (by decide)

theorem scan_two {b : Buffer α} (hcap : b.cap = maxCapacity) (hcount : b.count = 2)
    (hhead : b.head = 0) (h : filesize (b.slots 0) ≤ filesize (b.slots 1)) :
    b.minPhys filesize = 0 := by
  have h₁ : (int (0+1)).tmod maxCapacity = 1 := int_tmod_max (by decide) (by decide)
  have h₀ : (int (0+0)).tmod maxCapacity = 0 := int_tmod_max (by decide) (by decide)
  have hscan : (b.scan filesize).minLogical = 0 := by
    rw [Buffer.scan,hcount,hhead,show List.range' 1 (2-1) = [1] from rfl,List.foldl_cons,
      List.foldl_nil,Buffer.scanStep,hhead,hcap,Nat.cast_one,h₁,if_neg (by simpa using h)]
  rw [Buffer.minPhys,hscan,hhead,hcap]
  exact h₀

variable {x y} in
theorem get_wraps (h : filesize x ≤ filesize y) :
    bufferGet filesize (twoWait malloced x y) = .done (x,wrapped malloced x y) := by
  have hfirst : (twoWait malloced x y).slots 0 = x := by simp [twoWait,oneWaits]
  have hsecond : (twoWait malloced x y).slots 1 = y := by simp [twoWait]
  have hphys : (twoWait malloced x y).minPhys filesize = 0 :=
    scan_two rfl rfl rfl (by rw [hfirst,hsecond]; exact h)
  have hstart : (twoWait malloced x y).shiftStart filesize =
      ⟨(twoWait malloced x y).slots,0,1⟩ := by
    have hnext : (int (0+1)).tmod maxCapacity = 1 := int_tmod_max (by decide) (by decide)
    rw [Buffer.shiftStart,hphys]
    exact congrArg _ hnext
  -- one round of the loop moves `y`
  have hloop : (twoWait malloced x y).compact filesize =
      .done ⟨Function.update (twoWait malloced x y).slots 0 y,1,2⟩ := by
    have hnext : (int (1+1)).tmod maxCapacity = 2 := int_tmod_max (by decide) (by decide)
    have hstep : Shift.step maxCapacity ⟨(twoWait malloced x y).slots,0,1⟩ =
        ⟨Function.update (twoWait malloced x y).slots 0 y,1,2⟩ := by
      simp only [Shift.step,hsecond,hnext]
    rw [Buffer.compact,hstart,← hstep]
    exact loop_iterate _ (Shift.step maxCapacity) (n := 1)
      (fun k hk => by rw [Nat.lt_one_iff.mp hk]; rfl)
      (by rw [Function.iterate_one,hstep]; rfl) (show 1 ≤ 2*maxCapacity by decide)
  have htail : (int (2-1+maxCapacity)).tmod maxCapacity = -1 := by decide
  change ((twoWait malloced x y).compact filesize >>= _) = _
  rw [hloop,hphys,hfirst]
  exact congrArg (fun t => Exec.done (x,(⟨Function.update (twoWait malloced x y).slots 0 y,
    maxCapacity,1,0,t,.sff⟩ : Buffer α))) htail

theorem oneLost_contents : (oneLost malloced x y z).contents = [y,y] := by
  have hcells : (List.range 2).map (cell maxCapacity 0) = [0,1] := by decide
  have hview : (oneLost malloced x y z).contents =
      ((List.range 2).map (cell maxCapacity 0)).map (oneLost malloced x y z).slots := by
    rw [List.map_map]
    rfl
  rw [hview,hcells]
  simp [oneLost,wrapped,twoWait]

variable (filesize) in
/-- The get after it finds `y` in the first slot once more. To end, its loop
goes through the whole array, as if that were full. -/
theorem get_again : ∃ b, bufferGet filesize (oneLost malloced x y z) = .done (y,b) := by
  have hfirst : (oneLost malloced x y z).slots 0 = y := by simp [oneLost,wrapped]
  have hsecond : (oneLost malloced x y z).slots 1 = y := by simp [oneLost,wrapped,twoWait]
  have hphys : (oneLost malloced x y z).minPhys filesize = 0 :=
    scan_two rfl rfl rfl (by rw [hfirst,hsecond])
  have hwf : (⟨(oneLost malloced x y z).slots,maxCapacity,maxCapacity,0,0,.sff⟩ :
      Buffer α).WellFormed := by
    have hpos : (0 : Int) < maxCapacity := by decide
    exact ⟨show maxCapacity < 2^31 by decide,le_refl _,hpos,le_refl _,hpos,le_refl _,by simp⟩
  obtain ⟨s,_,hloop⟩ := compactFrom_done hwf (show 0 < maxCapacity by decide)
  have hcompact : (oneLost malloced x y z).compact filesize = .done s := by
    have hend := hloop (2*maxCapacity)
    rw [if_pos (show maxCapacity-1-0 ≤ 2*maxCapacity by decide)] at hend
    rw [Buffer.compact,Buffer.shiftStart,hphys]
    exact hend
  refine ⟨{ oneLost malloced x y z with
    slots := s.slots, tail := (int (0-1+maxCapacity)).tmod maxCapacity, count := 1 },?_⟩
  change ((oneLost malloced x y z).compact filesize >>= _) = _
  rw [hcompact,hphys,hfirst]
  rfl

variable (filesize) in
theorem overflow_execs (h : filesize x ≤ filesize y) :
    Execs (bufferMonitor filesize) (noneWaits malloced) [.put x,.put y,.got x,.put z]
      (oneLost malloced x y z) ∧
    ∃ b, Execs (bufferMonitor filesize) (noneWaits malloced)
      [.put x,.put y,.got x,.put z,.got y] b := by
  have hroom₀ : (noneWaits malloced).full = false := show (0 == maxCapacity) = false by decide
  have hroom₁ : (oneWaits malloced x).full = false := show (1 == maxCapacity) = false by decide
  have hroom₂ : (wrapped malloced x y).full = false := show (1 == maxCapacity) = false by decide
  have h₁ : Execs (bufferMonitor filesize) (noneWaits malloced) [.put x] _ :=
    execs_put .nil hroom₀ x
  rw [put_first] at h₁
  have h₂ := execs_put h₁ hroom₁ y
  rw [put_second] at h₂
  have h₃ := execs_get h₂ rfl (get_wraps malloced h)
  have h₄ := execs_put h₃ hroom₂ z
  rw [put_third] at h₄
  obtain ⟨b,hb⟩ := get_again filesize malloced x y z
  exact ⟨h₄,b,execs_get h₄ rfl hb⟩

end Overflow

end ConcurrentWebServer.Queueing
