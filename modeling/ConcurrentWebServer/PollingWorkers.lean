import ConcurrentWebServer.MesaMonitor
import Mathlib.Data.Multiset.AddSub
import Mathlib.Tactic.Abel
set_option autoImplicit false

/-!
A queue with a count of unfinished tasks, one thread that puts items into it
and then joins it, and workers that poll it with a timeout and give up when
they find it empty and then a stop flag set.
-/

namespace Polling

inductive Main where
  | putting : Main
  | joining : Main
  | joined : Main
  deriving DecidableEq

/-- Where a worker is; `empty` is between the timeout and the test of the flag,
`finishing` between the row and the `task_done`. -/
inductive Worker (I : Type) where
  | getting : Worker I
  | empty : Worker I
  | exited : Worker I
  | serving : I → Worker I
  | finishing : I → Worker I

/-- `dispatched` is a ghost: all that has been put. -/
structure Phase (W I R : Type) where
  queue : List I
  unfinished : Nat
  stop : Bool
  main : Main
  worker : W → Worker I
  rows : List R
  dispatched : List I

def Phase.start (W I R : Type) : Phase W I R :=
  ⟨[],0,false,.putting,fun _ => .getting,[],[]⟩

inductive Act where
  | set : Act
  | other : Act

section Steps

variable {W I R : Type} [DecidableEq W]

def Phase.move (s : Phase W I R) (w : W) (p : Worker I) : Phase W I R :=
  { s with worker := Function.update s.worker w p }

/-- A queue of `maxsize` items, or of any number if that is zero. `makes` says
which rows an item can lead to. -/
inductive Step (maxsize : Nat) (makes : I → R → Prop) : Phase W I R → Act → Phase W I R → Prop where
  | put {s : Phase W I R} (i : I) :
      s.main = .putting → maxsize = 0 ∨ s.queue.length < maxsize →
      Step maxsize makes s .other
        { s with
          queue := s.queue ++ [i]
          unfinished := s.unfinished+1
          dispatched := s.dispatched ++ [i] }
  | set {s : Phase W I R} :
      s.main = .putting → Step maxsize makes s .set { s with main := .joining, stop := true }
  | get {s : Phase W I R} (w : W) {i : I} {rest : List I} :
      s.worker w = .getting → s.queue = i :: rest →
      Step maxsize makes s .other { s.move w (.serving i) with queue := rest }
  | timeout {s : Phase W I R} (w : W) :
      s.worker w = .getting → s.queue = [] → Step maxsize makes s .other (s.move w .empty)
  | test {s : Phase W I R} (w : W) :
      s.worker w = .empty →
      Step maxsize makes s .other (s.move w (if s.stop then .exited else .getting))
  | append {s : Phase W I R} (w : W) {i : I} (r : R) :
      s.worker w = .serving i → makes i r →
      Step maxsize makes s .other { s.move w (.finishing i) with rows := s.rows ++ [r] }
  | taskDone {s : Phase W I R} (w : W) {i : I} {n : Nat} :
      s.worker w = .finishing i → s.unfinished = n+1 →
      Step maxsize makes s .other { s.move w .getting with unfinished := n }
  | join {s : Phase W I R} :
      s.main = .joining → s.unfinished = 0 → Step maxsize makes s .other { s with main := .joined }

def Runs (maxsize : Nat) (makes : I → R → Prop) (g : Phase W I R → Act → Prop) :
    Phase W I R → Phase W I R → Prop :=
  Relation.ReflTransGen fun s s' => ∃ a, Step maxsize makes s a s' ∧ g s a

def Reaches (maxsize : Nat) (makes : I → R → Prop) : Phase W I R → Phase W I R → Prop :=
  Runs maxsize makes fun _ _ => True

theorem Runs.reaches {maxsize : Nat} {makes : I → R → Prop} {g : Phase W I R → Act → Prop}
    {s s' : Phase W I R} (h : Runs maxsize makes g s s') : Reaches maxsize makes s s' := by
  induction h with
  | refl => exact .refl
  | tail _ hl ih =>
    obtain ⟨a,ha,_⟩ := hl
    exact ih.tail ⟨a,ha,trivial⟩

def Phase.Stranded (s : Phase W I R) : Prop := (∀ w, s.worker w = .exited) ∧ s.queue ≠ []

def Phase.Covered (s : Phase W I R) : Prop := s.queue = [] ∨ ∃ w, s.worker w ≠ .empty

end Steps

section Accounts

def Worker.inHand {I K : Type} (key : I → K) : Worker I → Multiset K
  | .serving i => {key i}
  | .getting | .empty | .exited | .finishing _ => 0

def Worker.undone {I : Type} : Worker I → Nat
  | .serving _ | .finishing _ => 1
  | .getting | .empty | .exited => 0

variable {W I R K : Type} [Fintype W]

/-- No item is lost or doubled, the count is that of the items that are queued
or taken, and nobody leaves before the flag is set. -/
structure Kept (key : I → K) (item : R → K) (s : Phase W I R) : Prop where
  items : (s.rows.map item : Multiset K) + ∑ w, (s.worker w).inHand key + s.queue.map key =
    s.dispatched.map key
  count : s.unfinished = s.queue.length + ∑ w, (s.worker w).undone
  stop : s.main = .putting ↔ s.stop = false
  stay : s.main = .putting → ∀ w, s.worker w ≠ .exited
  done : s.main = .joined → s.unfinished = 0

variable {key : I → K} {item : R → K} {s s' : Phase W I R}

theorem kept_start : Kept key item (Phase.start W I R) := by
  refine ⟨?_,?_,?_,?_,?_⟩ <;> simp [Phase.start,Worker.inHand,Worker.undone]

variable [DecidableEq W] {maxsize : Nat} {makes : I → R → Prop} {a : Act}

/-- A worker goes from one place to another, and what the queue and the rows
lose or win is what it takes or leaves. -/
theorem Kept.work (h : Kept key item s) {w : W} {p : Worker I} (queue : List I) (rows : List R)
    (n : Nat)
    (hitems : (rows.map item : Multiset K) + p.inHand key + queue.map key =
      s.rows.map item + (s.worker w).inHand key + s.queue.map key)
    (hcount : n + s.queue.length + (s.worker w).undone = s.unfinished + queue.length + p.undone)
    (hexit : p = .exited → s.main ≠ .putting) (hdone : s.main = .joined → n = 0) :
    Kept key item { s.move w p with queue := queue, rows := rows, unfinished := n } := by
  have hsum := MesaMonitor.sum_update (Worker.inHand key) s.worker w p
  have hundone := MesaMonitor.sum_update Worker.undone s.worker w p
  refine ⟨?_,?_,h.stop,fun hm u => ?_,hdone⟩
  · change (rows.map item : Multiset K) + ∑ u, (Function.update s.worker w p u).inHand key +
      queue.map key = s.dispatched.map key
    refine add_right_cancel (b := (s.worker w).inHand key) ?_
    calc (rows.map item : Multiset K) + ∑ u, (Function.update s.worker w p u).inHand key +
          queue.map key + (s.worker w).inHand key
        = (rows.map item : Multiset K) + (∑ u, (Function.update s.worker w p u).inHand key +
            (s.worker w).inHand key) + queue.map key := by abel
      _ = (rows.map item : Multiset K) + p.inHand key + queue.map key +
            ∑ u, (s.worker u).inHand key := by rw [hsum]; abel
      _ = (s.rows.map item : Multiset K) + ∑ u, (s.worker u).inHand key + s.queue.map key +
            (s.worker w).inHand key := by rw [hitems]; abel
      _ = s.dispatched.map key + (s.worker w).inHand key := by rw [h.items]
  · change n = queue.length + ∑ u, (Function.update s.worker w p u).undone
    have htotal := h.count
    omega
  · change Function.update s.worker w p u ≠ .exited
    by_cases hu : u = w
    · rw [hu,Function.update_self]
      exact fun he => hexit he hm
    · rw [Function.update_of_ne hu]
      exact h.stay hm u

theorem step_kept (hmakes : ∀ i r, makes i r → item r = key i) (h : Kept key item s)
    (hl : Step maxsize makes s a s') : Kept key item s' := by
  cases hl with
  | put i hm _ =>
    refine ⟨?_,?_,h.stop,h.stay,fun hj => ?_⟩
    · change _ + _ + ((s.queue ++ [i]).map key : Multiset K) = (s.dispatched ++ [i]).map key
      rw [List.map_append,List.map_append,← Multiset.coe_add,← Multiset.coe_add,← h.items]
      abel
    · have hcount := h.count
      simp only [List.length_append,List.length_singleton]
      omega
    · rw [hm] at hj
      cases hj
  | set hm => exact ⟨h.items,h.count,by simp,by simp,by simp⟩
  | @get w i rest hw hq =>
    refine h.work rest s.rows s.unfinished ?_ ?_ (by simp) h.done
    · rw [hw,hq,List.map_cons,← Multiset.cons_coe,← Multiset.singleton_add]
      change _ + {key i} + _ = _ + 0 + _
      abel
    · rw [hw,hq,List.length_cons]
      change s.unfinished + (rest.length+1) + 0 = s.unfinished + rest.length + 1
      omega
  | timeout w hw _ =>
    exact h.work s.queue s.rows s.unfinished (by rw [hw]; rfl) (by rw [hw]; rfl) (by simp) h.done
  | test w hw =>
    have hleave : (if s.stop then Worker.exited else .getting : Worker I) = .exited →
        s.main ≠ .putting := by
      intro he hm
      simp [h.stop.mp hm] at he
    refine h.work s.queue s.rows s.unfinished ?_ ?_ hleave h.done
    · rw [hw]
      cases s.stop <;> rfl
    · rw [hw]
      cases s.stop <;> rfl
  | @append w i r hw hr =>
    refine h.work s.queue (s.rows ++ [r]) s.unfinished ?_ (by rw [hw]; rfl) (by simp) h.done
    rw [hw,List.map_append,List.map_singleton,hmakes i r hr,← Multiset.coe_add,
      Multiset.coe_singleton]
    change _ + _ + 0 + _ = _ + {key i} + _
    abel
  | @taskDone w i n hw hn =>
    refine h.work s.queue s.rows n (by rw [hw]; rfl) ?_ (by simp) fun hj => ?_
    · rw [hw,hn]
      exact add_right_comm n _ 1
    · have hzero := h.done hj
      omega
  | join hm hz => exact ⟨h.items,h.count,by simp [h.stop.symm,hm],by simp,fun _ => hz⟩

theorem runs_kept {g : Phase W I R → Act → Prop} (hmakes : ∀ i r, makes i r → item r = key i)
    (h : Runs maxsize makes g (Phase.start W I R) s) : Kept key item s := by
  induction h with
  | refl => exact kept_start
  | tail _ hl ih =>
    obtain ⟨a,ha,_⟩ := hl
    exact step_kept hmakes ih ha

omit [DecidableEq W] in
theorem Kept.all_rows (h : Kept key item s) (hz : s.unfinished = 0) :
    (s.rows.map item : Multiset K) = s.dispatched.map key := by
  have hcount := h.count
  rw [hz] at hcount
  have hqueue : s.queue = [] := List.length_eq_zero_iff.mp (by omega)
  have hundone : ∑ w, (s.worker w).undone = 0 := by omega
  have hhand : ∑ w, (s.worker w).inHand key = 0 := by
    refine Finset.sum_eq_zero fun w hw => ?_
    have hw := Finset.sum_eq_zero_iff.mp hundone w hw
    cases hp : s.worker w with
    | serving i =>
      rw [hp] at hw
      cases hw
    | _ => rfl
  have hitems := h.items
  rw [hhand,hqueue] at hitems
  simpa using hitems

omit [DecidableEq W] in
theorem Kept.unfinished_pos (h : Kept key item s) (hq : s.queue ≠ []) : 0 < s.unfinished := by
  have hlen := List.length_pos_iff.mpr hq
  have hcount := h.count
  omega

/-- From a stranded state there is no way on: `join` blocks for ever. -/
theorem stranded_stuck [Nonempty W] (h : Kept key item s) (hs : s.Stranded) :
    s.main = .joining ∧ ¬ ∃ a s', Step maxsize makes s a s' := by
  obtain ⟨hexit,hq⟩ := hs
  have hpos := h.unfinished_pos hq
  have hmain : s.main = .joining := by
    obtain ⟨w⟩ := (inferInstance : Nonempty W)
    cases hm : s.main with
    | putting => exact absurd (hexit w) (h.stay hm w)
    | joining => rfl
    | joined =>
      have hzero := h.done hm
      omega
  refine ⟨hmain,?_⟩
  rintro ⟨a,s',hl⟩
  cases hl with
  | put _ hm _ => rw [hmain] at hm; cases hm
  | set hm => rw [hmain] at hm; cases hm
  | get w hw _ => rw [hexit w] at hw; cases hw
  | timeout w hw _ => rw [hexit w] at hw; cases hw
  | test w hw => rw [hexit w] at hw; cases hw
  | append w _ hw _ => rw [hexit w] at hw; cases hw
  | taskDone w hw _ => rw [hexit w] at hw; cases hw
  | join _ hz => omega

end Accounts

section Stranding

variable {W I R K : Type} {s s' : Phase W I R}

def Phase.Attended (s : Phase W I R) : Prop :=
  s.main = .putting ∨ s.queue = [] ∨ ∃ w, s.worker w ≠ .empty ∧ s.worker w ≠ .exited

variable [DecidableEq W] {maxsize : Nat} {makes : I → R → Prop} {a : Act}

/-- A worker goes from one place to another, both of which it will come back
from, or it was not the one that is counted on. -/
theorem attended_move {f : W → Worker I} {w : W} {p : Worker I}
    (h : ∃ u, f u ≠ .empty ∧ f u ≠ .exited)
    (hp : f w = .empty ∨ p ≠ .empty ∧ p ≠ .exited) :
    ∃ u, Function.update f w p u ≠ .empty ∧ Function.update f w p u ≠ .exited := by
  obtain ⟨u,hu⟩ := h
  by_cases huw : u = w
  · subst huw
    refine ⟨u,?_⟩
    rw [Function.update_self]
    exact hp.resolve_left hu.1
  · refine ⟨u,?_⟩
    rw [Function.update_of_ne huw]
    exact hu

theorem Phase.Attended.work (h : s.Attended) {w : W} {p : Worker I} (rows : List R) (n : Nat)
    (hp : s.worker w = .empty ∨ p ≠ .empty ∧ p ≠ .exited) :
    Phase.Attended { s.move w p with rows := rows, unfinished := n } := by
  rcases h with hm | hnil | hu
  · exact .inl hm
  · exact .inr (.inl hnil)
  · exact .inr (.inr (attended_move hu hp))

theorem step_attended (h : s.Attended) (hstay : s.main = .putting → ∀ w, s.worker w ≠ .exited)
    (hg : a = .set → s.Covered) (hl : Step maxsize makes s a s') : s'.Attended := by
  cases hl with
  | put _ hm _ => exact .inl hm
  | set hm =>
    rcases hg rfl with hq | ⟨w,hw⟩
    · exact .inr (.inl hq)
    · exact .inr (.inr ⟨w,hw,hstay hm w⟩)
  | get w hw hq =>
    rcases h with hm | hnil | hu
    · exact .inl hm
    · rw [hq] at hnil
      cases hnil
    · exact .inr (.inr (attended_move hu (.inr ⟨by simp,by simp⟩)))
  | timeout w _ hq => exact .inr (.inl hq)
  | test w hw => exact h.work s.rows s.unfinished (.inl hw)
  | append w r _ _ => exact h.work (s.rows ++ [r]) s.unfinished (.inr ⟨by simp,by simp⟩)
  | @taskDone w i n _ _ => exact h.work s.rows n (.inr ⟨by simp,by simp⟩)
  | join hm _ =>
    rcases h with hput | hnil | hu
    · rw [hput] at hm
      cases hm
    · exact .inr (.inl hnil)
    · exact .inr (.inr hu)

omit [DecidableEq W] in
theorem Phase.Attended.not_stranded [Nonempty W] (h : s.Attended)
    (hstay : s.main = .putting → ∀ w, s.worker w ≠ .exited) : ¬ s.Stranded := by
  rintro ⟨hexit,hq⟩
  rcases h with hm | hnil | ⟨w,_,hw⟩
  · obtain ⟨w⟩ := (inferInstance : Nonempty W)
    exact hstay hm w (hexit w)
  · exact hq hnil
  · exact hw (hexit w)

theorem all_leave (maxsize : Nat) (makes : I → R → Prop) (hstop : s.stop = true)
    (hall : ∀ w, s.worker w = .empty) (T : Finset W) :
    ∃ s', Reaches maxsize makes s s' ∧ s'.queue = s.queue ∧ s'.stop = true ∧
      (∀ w ∈ T, s'.worker w = .exited) ∧ ∀ w ∉ T, s'.worker w = .empty := by
  induction T using Finset.induction_on with
  | empty => exact ⟨s,.refl,rfl,hstop,by simp,fun w _ => hall w⟩
  | insert w T hw ih =>
    obtain ⟨s',hrun,hq,hs,hin,hout⟩ := ih
    refine ⟨_,hrun.tail ⟨.other,.test w (hout w hw),trivial⟩,hq,hs,fun u hu => ?_,fun u hu => ?_⟩
    · rw [hs]
      by_cases huw : u = w
      · rw [huw]
        exact Function.update_self _ _ _
      · exact (Function.update_of_ne huw _ _).trans
          (hin u ((Finset.mem_insert.mp hu).resolve_left huw))
    · rw [Finset.mem_insert,not_or] at hu
      exact (Function.update_of_ne hu.1 _ _).trans (hout u hu.2)

def Phase.afterSet (s : Phase W I R) : Phase W I R := { s with main := .joining, stop := true }

variable {key : I → K} {item : R → K} [Fintype W] [Nonempty W]

theorem runs_not_stranded (hmakes : ∀ i r, makes i r → item r = key i)
    (h : Runs maxsize makes (fun s a => a = .set → s.Covered) (Phase.start W I R) s) :
    ¬ s.Stranded := by
  have hattended : s.Attended := by
    induction h with
    | refl => exact .inl rfl
    | tail hs hl ih =>
      obtain ⟨a,ha,hg⟩ := hl
      exact step_attended ih (runs_kept hmakes hs).stay hg ha
  exact hattended.not_stranded (runs_kept hmakes h).stay

/-- An item can be left behind just when the flag is set while the queue is not
empty and all workers are between their timeout and their test. -/
theorem covered_iff (hmakes : ∀ i r, makes i r → item r = key i) (h : Kept key item s)
    (hm : s.main = .putting) :
    s.Covered ↔ ∀ s', Reaches maxsize makes s.afterSet s' → ¬ s'.Stranded := by
  constructor
  · intro hc s' hrun
    have hinv : Kept key item s' ∧ s'.main ≠ .putting ∧ s'.Attended := by
      induction hrun with
      | refl =>
        have hset : Step maxsize makes s .set s.afterSet := .set hm
        exact ⟨step_kept hmakes h hset,by simp [Phase.afterSet],
          step_attended (.inl hm) h.stay (fun _ => hc) hset⟩
      | tail _ hl ih =>
        obtain ⟨a,ha,_⟩ := hl
        obtain ⟨hk,hmain,hatt⟩ := ih
        have hno : a ≠ .set := by
          rintro rfl
          cases ha with
          | set hput => exact hmain hput
        refine ⟨step_kept hmakes hk ha,?_,step_attended hatt hk.stay (fun he => absurd he hno) ha⟩
        cases ha with
        | put _ hput _ => exact absurd hput hmain
        | set hput => exact absurd hput hmain
        | join _ _ => simp
        | _ => exact hmain
    exact hinv.2.2.not_stranded hinv.1.stay
  · intro hno
    by_contra hc
    rw [Phase.Covered,not_or] at hc
    have hempty : ∀ w, s.worker w = .empty := by
      intro w
      by_contra hw
      exact hc.2 ⟨w,hw⟩
    obtain ⟨s',hrun,hq,_,hexit,_⟩ :=
      all_leave (s := s.afterSet) maxsize makes rfl hempty Finset.univ
    exact hno s' hrun ⟨fun w => hexit w (Finset.mem_univ w),by rw [hq]; exact hc.1⟩

end Stranding

end Polling
