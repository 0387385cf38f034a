import Mathlib.Algebra.BigOperators.Group.List.Basic
import Mathlib.Algebra.Order.BigOperators.Group.Multiset
import Mathlib.Algebra.Order.Monoid.Unbundled.Pow
import Mathlib.Data.Fintype.Card
import Mathlib.Data.Fintype.Lattice
import Mathlib.Data.List.Perm.Basic
import Mathlib.Data.Multiset.AddSub
import Mathlib.Tactic.Abel
import Mathlib.Tactic.Common
set_option autoImplicit false

/-!
Jobs that are given out, one after the other, to workers that are alike. Giving
them out by increasing cost, each to a worker that is free first, makes the sum
of the times at which they are done the least there is.
-/

namespace ListScheduling

variable {α W T : Type} [DecidableEq W] [AddCommMonoid T]

section Schedules

variable (cost : α → T)

def completions : (W → T) → List (α × W) → List T
  | _,[] => []
  | load,(x,w) :: l =>
      (load w+cost x) :: completions (Function.update load w (load w+cost x)) l

def FirstFree [LE T] : (W → T) → List (α × W) → Prop
  | _,[] => True
  | load,(x,w) :: l =>
      (∀ v, load w ≤ load v) ∧ FirstFree (Function.update load w (load w+cost x)) l

def flow : List (α × W) → T
  | [] => 0
  | (x,w) :: l => ((l.map Prod.snd).count w+1) • cost x+flow l

def earlier : List (α × W) → List (α × W)
  | [] => []
  | (x,w) :: l => if w ∈ l.map Prod.snd then (x,w) :: earlier l else earlier l

theorem sum_update (load : W → T) (w : W) (y : T) (l : List (α × W)) :
    (l.map fun p => Function.update load w (load w+y) p.2).sum =
      (l.map fun p => load p.2).sum+(l.map Prod.snd).count w • y := by
  induction l with
  | nil => simp
  | cons p l ih =>
    obtain ⟨x,v⟩ := p
    simp only [List.map_cons,List.sum_cons,ih]
    by_cases hv : v = w
    · subst hv
      rw [Function.update_self,List.count_cons_self,succ_nsmul]
      abel
    · rw [Function.update_of_ne hv,List.count_cons_of_ne hv]
      abel

theorem completions_sum (load : W → T) (l : List (α × W)) :
    (completions cost load l).sum = (l.map fun p => load p.2).sum+flow cost l := by
  induction l generalizing load with
  | nil => simp [completions,flow]
  | cons p l ih =>
    obtain ⟨x,w⟩ := p
    simp only [completions,flow,List.map_cons,List.sum_cons,ih,sum_update,succ_nsmul]
    abel

theorem count_earlier (l : List (α × W)) (w : W) :
    ((earlier l).map Prod.snd).count w = (l.map Prod.snd).count w-1 := by
  induction l with
  | nil => rfl
  | cons p l ih =>
    obtain ⟨x,v⟩ := p
    by_cases hv : v = w
    · subst hv
      by_cases hm : v ∈ l.map Prod.snd
      · have hpos := List.count_pos_iff.mpr hm
        simp only [earlier,if_pos hm,List.map_cons,List.count_cons_self,ih]
        omega
      · have hzero := List.count_eq_zero.mpr hm
        simp only [earlier,if_neg hm,List.map_cons,List.count_cons_self,ih,hzero]
    · by_cases hm : v ∈ l.map Prod.snd
      · simp only [earlier,if_pos hm,List.map_cons,List.count_cons_of_ne hv,ih]
      · simp only [earlier,if_neg hm,List.map_cons,List.count_cons_of_ne hv,ih]

theorem flow_earlier (l : List (α × W)) :
    flow cost l = (l.map fun p => cost p.1).sum+flow cost (earlier l) := by
  induction l with
  | nil => simp [flow,earlier]
  | cons p l ih =>
    obtain ⟨x,w⟩ := p
    by_cases hm : w ∈ l.map Prod.snd
    · have hpos := List.count_pos_iff.mpr hm
      have hone : (l.map Prod.snd).count w-1+1 = (l.map Prod.snd).count w := by omega
      simp only [flow,earlier,if_pos hm,count_earlier,hone,List.map_cons,List.sum_cons,ih,
        succ_nsmul]
      abel
    · have hzero := List.count_eq_zero.mpr hm
      simp only [flow,earlier,if_neg hm,hzero,List.map_cons,List.sum_cons,ih,succ_nsmul,zero_nsmul]
      abel

theorem earlier_sublist (l : List (α × W)) : (earlier l).Sublist l := by
  induction l with
  | nil => exact .slnil
  | cons p l ih =>
    obtain ⟨x,w⟩ := p
    by_cases hm : w ∈ l.map Prod.snd
    · simp only [earlier,if_pos hm]
      exact ih.cons_cons _
    · simp only [earlier,if_neg hm]
      exact ih.cons _

theorem earlier_length (l : List (α × W)) :
    (earlier l).length+(l.map Prod.snd).toFinset.card = l.length := by
  induction l with
  | nil => rfl
  | cons p l ih =>
    obtain ⟨x,w⟩ := p
    rw [List.map_cons,List.toFinset_cons]
    by_cases hm : w ∈ l.map Prod.snd
    · rw [Finset.insert_eq_of_mem (List.mem_toFinset.mpr hm)]
      simp only [earlier,if_pos hm,List.length_cons]
      omega
    · rw [Finset.card_insert_of_notMem (by simpa using hm)]
      simp only [earlier,if_neg hm,List.length_cons]
      omega

theorem length_le_earlier [Fintype W] (l : List (α × W)) :
    l.length ≤ (earlier l).length+Fintype.card W := by
  have hlen := earlier_length l
  have hcard := Finset.card_le_univ (l.map Prod.snd).toFinset
  omega

theorem earlier_shorter {l : List (α × W)} (hl : l ≠ []) : (earlier l).length < l.length := by
  have hlen := earlier_length l
  have hpos : 0 < (l.map Prod.snd).toFinset.card := by
    rw [Finset.card_pos,List.toFinset_nonempty_iff]
    simpa using hl
  omega

end Schedules

section Queue

/-- The jobs of the costs `ps`, each given to the worker at the front of a queue
of the times at which the workers are free. -/
def served : List T → List T → List T
  | [],_ => []
  | _ :: _,[] => []
  | t :: q,p :: ps => (t+p) :: served (q ++ [t+p]) ps

theorem served_nil (q : List T) : served q [] = [] := by
  cases q <;> rfl

theorem served_length {q : List T} (hq : q ≠ []) (ps : List T) :
    (served q ps).length = ps.length := by
  induction ps generalizing q with
  | nil => rw [served_nil]
  | cons p ps ih =>
    cases q with
    | nil => exact absurd rfl hq
    | cons t q => simp [served,ih]

theorem served_take {q : List T} (ps : List T) (k : Nat) :
    (served q ps).take k = served q (ps.take k) := by
  induction ps generalizing q k with
  | nil => simp [served_nil]
  | cons p ps ih =>
    cases q with
    | nil => simp [served]
    | cons t q =>
      cases k with
      | zero => rfl
      | succ k => simp [served,ih]

theorem served_round {q : List T} (hq : q ≠ []) (ps : List T) :
    served q ps = List.zipWith (· + ·) (q ++ served q ps) ps := by
  induction ps generalizing q with
  | nil => simp [served_nil]
  | cons p ps ih =>
    cases q with
    | nil => exact absurd rfl hq
    | cons t q =>
      have hih := @ih (q ++ [t+p]) (by simp)
      simp only [served,List.cons_append,List.zipWith_cons_cons]
      rw [List.append_assoc,List.singleton_append] at hih
      rw [← hih]

theorem sum_zipWith {a b : List T} (h : b.length ≤ a.length) :
    (List.zipWith (· + ·) a b).sum = (a.take b.length).sum+b.sum := by
  induction b generalizing a with
  | nil => simp
  | cons y b ih =>
    cases a with
    | nil => simp at h
    | cons x a =>
      simp only [List.zipWith_cons_cons,List.sum_cons,List.length_cons,List.take_succ_cons]
      rw [ih (by simpa using h)]
      abel

/-- With `m` workers, each job waits for those `m`, `2m`, ... places before it. -/
theorem served_sum {m : Nat} (hm : 0 < m) (ps : List T) :
    (served (List.replicate m 0) ps).sum =
      ps.sum+(served (List.replicate m 0) (ps.take (ps.length-m))).sum := by
  have hq : List.replicate m (0 : T) ≠ [] := by
    simp
    omega
  have hround := served_round hq ps
  have hlen := served_length hq ps
  calc (served (List.replicate m 0) ps).sum
      = (List.zipWith (· + ·) (List.replicate m 0 ++ served (List.replicate m 0) ps) ps).sum := by
        rw [← hround]
    _ = ((List.replicate m 0 ++ served (List.replicate m 0) ps).take ps.length).sum+ps.sum :=
        sum_zipWith (by simp; omega)
    _ = ((served (List.replicate m 0) ps).take (ps.length-m)).sum+ps.sum := by
        rw [List.take_append,List.sum_append,List.length_replicate]
        have hzero : ((List.replicate m (0 : T)).take ps.length).sum = 0 := by
          rw [List.take_replicate]
          simp
        rw [hzero,zero_add]
    _ = ps.sum+(served (List.replicate m 0) (ps.take (ps.length-m))).sum := by
        rw [served_take,add_comm]

end Queue

section Order

variable [LinearOrder T] [IsOrderedAddMonoid T]

theorem sum_take_le {s : List T} (hs : s.Pairwise (· ≤ ·)) (h0 : ∀ y ∈ s, 0 ≤ y) {t : Multiset T}
    (ht : t ≤ (s : Multiset T)) {k : Nat} (hk : k ≤ t.card) : (s.take k).sum ≤ t.sum := by
  induction s generalizing t k with
  | nil =>
    have hnil : t = 0 := Multiset.le_zero.mp ht
    simp [hnil]
  | cons a s ih =>
    rw [List.pairwise_cons] at hs
    cases k with
    | zero =>
      refine Multiset.sum_nonneg fun y hy => h0 y ?_
      simpa using Multiset.subset_of_le ht hy
    | succ k =>
      -- take `a` out of `t`, or else anything, which is not less than `a`
      obtain ⟨b,u,rfl,hab,hu⟩ : ∃ b u, t = b ::ₘ u ∧ a ≤ b ∧ u ≤ (s : Multiset T) := by
        rw [← Multiset.cons_coe] at ht
        by_cases ha : a ∈ t
        · obtain ⟨u,rfl⟩ := Multiset.exists_cons_of_mem ha
          exact ⟨a,u,rfl,le_refl a,(Multiset.cons_le_cons_iff a).mp ht⟩
        · have hts := (Multiset.le_cons_of_notMem ha).mp ht
          obtain ⟨b,hb⟩ := Multiset.card_pos_iff_exists_mem.mp (by omega : 0 < t.card)
          obtain ⟨u,rfl⟩ := Multiset.exists_cons_of_mem hb
          refine ⟨b,u,rfl,hs.1 b ?_,(Multiset.le_cons_self u b).trans hts⟩
          simpa using Multiset.subset_of_le hts hb
      rw [Multiset.card_cons] at hk
      rw [List.take_succ_cons,List.sum_cons,Multiset.sum_cons]
      exact add_le_add hab (ih hs.2 (fun y hy => h0 y (List.mem_cons_of_mem a hy)) hu (by omega))

/-- No schedule is done earlier on the whole than the queue with the costs in order. -/
theorem served_le_flow [Fintype W] [Nonempty W] {cost : α → T} {s : List T}
    (hs : s.Pairwise (· ≤ ·)) (h0 : ∀ y ∈ s, 0 ≤ y) {l : List (α × W)}
    (hl : ((l.map fun p => cost p.1 : List T) : Multiset T) ≤ s) {k : Nat} (hk : k ≤ l.length) :
    (served (List.replicate (Fintype.card W) 0) (s.take k)).sum ≤ flow cost l := by
  by_cases hnil : l = []
  · subst hnil
    have hk0 : k = 0 := by simpa using hk
    simp [hk0,served_nil,flow]
  · have hlen : k ≤ s.length := by
      have hcard := Multiset.card_le_card hl
      simp only [Multiset.coe_card,List.length_map] at hcard
      omega
    have hshort := earlier_shorter hnil
    have hlong := length_le_earlier l
    have hsub : (((earlier l).map fun p => cost p.1 : List T) : Multiset T) ≤ s :=
      le_trans ((earlier_sublist l).map _).subperm hl
    have hih := served_le_flow hs h0 hsub (k := k-Fintype.card W) (by omega)
    have hsum := sum_take_le hs h0 hl (k := k) (by simpa using hk)
    rw [flow_earlier,served_sum Fintype.card_pos,List.take_take,List.length_take]
    rw [show min (min k s.length-Fintype.card W) k = k-Fintype.card W by omega]
    exact add_le_add (by simpa using hsum) hih
termination_by l.length

theorem completions_served [Fintype W] {cost : α → T} (h0 : ∀ x, 0 ≤ cost x) {load : W → T}
    {l : List (α × W)} {q : List T} (hq : (q : Multiset T) = Finset.univ.val.map load)
    (hsorted : q.Pairwise (· ≤ ·))
    (hnext : ∀ t ∈ q, ∀ a ∈ q.head?, ∀ p ∈ l.head?, t ≤ a+cost p.1)
    (hcost : (l.map fun p => cost p.1).Pairwise (· ≤ ·)) (hl : FirstFree cost load l) :
    completions cost load l = served q (l.map fun p => cost p.1) := by
  induction l generalizing load q with
  | nil => simp [completions,served_nil]
  | cons p l ih =>
    obtain ⟨x,w⟩ := p
    obtain ⟨hleast,hl⟩ := hl
    have hmem : ∀ v, load v ∈ q := by
      intro v
      rw [← Multiset.mem_coe,hq]
      exact Multiset.mem_map_of_mem load (Finset.mem_univ v)
    cases q with
    | nil => exact absurd (hmem w) (by simp)
    | cons t q =>
      have ht : load w = t := by
        obtain ⟨v,_,hv⟩ := Multiset.mem_map.mp (hq ▸ Multiset.mem_coe.mpr List.mem_cons_self)
        refine le_antisymm (hv ▸ hleast v) ?_
        rcases List.mem_cons.mp (hmem w) with he | hm
        · exact he.ge
        · exact (List.pairwise_cons.mp hsorted).1 _ hm
      subst ht
      have hrest : (q : Multiset T) = (Finset.univ.erase w).val.map load := by
        have hsplit : Finset.univ.val.map load = load w ::ₘ (Finset.univ.erase w).val.map load := by
          rw [Finset.erase_val,← Multiset.map_cons load w,
            Multiset.cons_erase (Finset.mem_univ w)]
        rw [hsplit,← Multiset.cons_coe] at hq
        exact (Multiset.cons_inj_right _).mp hq
      have hbound : ∀ u ∈ q, u ≤ load w+cost x := fun u hu =>
        hnext u (List.mem_cons_of_mem _ hu) _ rfl _ rfl
      rw [List.map_cons,List.pairwise_cons] at hcost
      simp only [completions,List.map_cons,served]
      congr 1
      refine ih ?_ ?_ ?_ hcost.2 hl
      · have hsplit : Finset.univ.val.map (Function.update load w (load w+cost x)) =
            (load w+cost x) ::ₘ (Finset.univ.erase w).val.map load := by
          rw [← Multiset.cons_erase (Finset.mem_univ w),Multiset.map_cons,Function.update_self,
            ← Finset.erase_val]
          congr 1
          refine Multiset.map_congr rfl fun v hv => ?_
          exact Function.update_of_ne (Finset.ne_of_mem_erase hv) _ _
        rw [hsplit,← hrest,Multiset.cons_coe]
        exact Multiset.coe_eq_coe.mpr (List.perm_append_singleton _ _)
      · rw [List.pairwise_append]
        refine ⟨(List.pairwise_cons.mp hsorted).2,by simp,?_⟩
        intro u hu v hv
        rw [List.mem_singleton.mp hv]
        exact hbound u hu
      · intro u hu a ha p hp
        -- the front of the queue and the cost of the next job have not become less
        have hpx : cost x ≤ cost p.1 :=
          hcost.1 _ (List.mem_map_of_mem (List.mem_of_mem_head? hp))
        have hfront : load w ≤ a := by
          cases q with
          | nil =>
            cases ha
            exact le_add_of_nonneg_right (h0 x)
          | cons b q =>
            cases ha
            exact (List.pairwise_cons.mp hsorted).1 a List.mem_cons_self
        have hle : load w+cost x ≤ a+cost p.1 := add_le_add hfront hpx
        rcases List.mem_append.mp hu with hu | hu
        · exact (hbound u hu).trans hle
        · rw [List.mem_singleton.mp hu]
          exact hle

omit [IsOrderedAddMonoid T] in
theorem exists_firstFree [Finite W] [Nonempty W] (cost : α → T) (load : W → T) (xs : List α) :
    ∃ l : List (α × W), l.map Prod.fst = xs ∧ FirstFree cost load l := by
  induction xs generalizing load with
  | nil => exact ⟨[],rfl,trivial⟩
  | cons x xs ih =>
    obtain ⟨w,hw⟩ := Finite.exists_min load
    obtain ⟨l,hl,hfirst⟩ := ih (Function.update load w (load w+cost x))
    exact ⟨(x,w) :: l,by rw [List.map_cons,hl],hw,hfirst⟩

/-- By increasing cost and to whoever is free first: no other order and no
other choice of the workers has a lesser sum of completion times. -/
theorem least_first_optimal [Fintype W] [Nonempty W] {cost : α → T} (h0 : ∀ x, 0 ≤ cost x)
    {l l' : List (α × W)} (hl : FirstFree cost (fun _ => 0) l)
    (hcost : (l.map fun p => cost p.1).Pairwise (· ≤ ·))
    (hperm : (l'.map Prod.fst).Perm (l.map Prod.fst)) :
    (completions cost (fun _ => 0) l).sum ≤ (completions cost (fun _ => 0) l').sum := by
  have hnonneg : ∀ y ∈ l.map (fun p => cost p.1), 0 ≤ y := by
    intro y hy
    obtain ⟨p,_,rfl⟩ := List.mem_map.mp hy
    exact h0 p.1
  have hcosts : (l'.map fun p => cost p.1).Perm (l.map fun p => cost p.1) := by
    have hmap := hperm.map cost
    rwa [List.map_map,List.map_map] at hmap
  have hqueue : (List.replicate (Fintype.card W) (0 : T) : Multiset T) =
      Finset.univ.val.map fun _ : W => 0 := by
    rw [Multiset.map_const',Multiset.coe_replicate]
    rfl
  have hserved := completions_served h0 hqueue (by simp [List.pairwise_replicate])
    (fun t ht a ha p _ => by
      have hta : t = 0 := (List.mem_replicate.mp ht).2
      have haa : a = 0 := (List.mem_replicate.mp (List.mem_of_mem_head? ha)).2
      rw [hta,haa,zero_add]
      exact h0 p.1) hcost hl
  have hle := served_le_flow hcost hnonneg (l := l') (k := l'.length)
    (Multiset.coe_eq_coe.mpr hcosts).le le_rfl
  have hlen : l'.length = (l.map fun p => cost p.1).length := by
    rw [← hcosts.length_eq,List.length_map]
  rw [hlen,List.take_length,← hserved] at hle
  rw [completions_sum cost _ l']
  simpa using hle

end Order

end ListScheduling
