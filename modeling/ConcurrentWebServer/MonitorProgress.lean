import ConcurrentWebServer.MesaMonitor
set_option autoImplicit false

/-!
How far the threads of a monitor get on their own: as long as nobody calls and
nobody wakes for no reason, they come to rest, each of them outside or asleep
for want of what it waits for.
-/

namespace MesaMonitor

variable {Tid σ Op Res Cond : Type}

section Threads

def Pc.Within (P : Op → Prop) (Q : Res → Prop) : Pc Op Res → Prop
  | .idle => True
  | .lock op | .test op | .wait op | .woken op | .body op => P op
  | .unlock r => Q r

/-- Steps that are still to be taken at a program point. A thread that sleeps
has its body to run yet, and its signal to send. -/
def Pc.rank : Pc Op Res → Nat
  | .idle => 0
  | .unlock _ => 1
  | .wait _ => 4
  | .body _ => 5
  | .test _ => 6
  | .lock _ | .woken _ => 7

variable [DecidableEq Tid]

def Spurious (s s' : State Tid σ Op Res) : Prop :=
  ∃ t op, s.pc t = .wait op ∧ s' = s.goto t (.woken op)

theorem within_step {M : Ops σ Op Res Cond} {P : Tid → Op → Prop} {Q : Tid → Res → Prop}
    (hbody : ∀ t op x r y, P t op → M.body op x = some (r,y) → Q t r)
    {s s' : State Tid σ Op Res} {l : Label Tid Op Res} (hcall : ∀ t op, l = .call t op → P t op)
    (h : ∀ t, (s.pc t).Within (P t) (Q t)) (hl : Step M s l s') (t : Tid) :
    (s'.pc t).Within (P t) (Q t) := by
  have hmove : ∀ {pc : Tid → Pc Op Res} (u : Tid) (q : Pc Op Res),
      (∀ t, (pc t).Within (P t) (Q t)) → q.Within (P u) (Q u) →
      (Function.update pc u q t).Within (P t) (Q t) := by
    intro pc u q hpc hq
    by_cases ht : t = u
    · subst ht
      rwa [Function.update_self]
    · rw [Function.update_of_ne ht]
      exact hpc t
  have hat : ∀ {u : Tid} {p : Pc Op Res}, s.pc u = p → p.Within (P u) (Q u) := by
    intro u p hp
    rw [← hp]
    exact h u
  cases hl with
  | call u op _ => exact hmove u (.lock op) h (hcall u op rfl)
  | acquire u op hp _ => exact hmove u (.test op) h (hat hp :)
  | reacquire u op hp _ => exact hmove u (.test op) h (hat hp :)
  | wait u op hp _ => exact hmove u (.wait op) h (hat hp :)
  | pass u op hp _ => exact hmove u (.body op) h (hat hp :)
  | spurious u op hp => exact hmove u (.woken op) h (hat hp :)
  | @complete u op r x pc hp hb hs =>
    have hres : Q u r := hbody u op _ r x (hat hp :) hb
    have hupd : ∀ v, (Function.update s.pc u (.unlock r) v).Within (P v) (Q v) := by
      intro v
      by_cases hv : v = u
      · subst hv
        rwa [Function.update_self]
      · rw [Function.update_of_ne hv]
        exact h v
    cases hs with
    | wake w op' hw _ =>
      have hw' := hupd w
      rw [hw] at hw'
      exact hmove w (.woken op') hupd hw'
    | forget _ => exact hupd t
  | ret u r _ => exact hmove u .idle h trivial

theorem Step.busy {M : Ops σ Op Res Cond} {s s' : State Tid σ Op Res} {l : Label Tid Op Res}
    (hl : Step M s l s') {t : Tid} (h : s.pc t ≠ .idle) (hr : ∀ r, l ≠ .ret t r) :
    s'.pc t ≠ .idle := by
  have hmove : ∀ {pc : Tid → Pc Op Res} {u : Tid} {q : Pc Op Res}, pc t ≠ .idle → q ≠ .idle →
      Function.update pc u q t ≠ .idle := by
    intro pc u q hpc hq
    by_cases ht : t = u
    · subst ht
      rwa [Function.update_self]
    · rwa [Function.update_of_ne ht]
  cases hl with
  | call u op _ => exact hmove h (by simp)
  | acquire u op _ _ => exact hmove h (by simp)
  | reacquire u op _ _ => exact hmove h (by simp)
  | wait u op _ _ => exact hmove h (by simp)
  | pass u op _ _ => exact hmove h (by simp)
  | spurious u op _ => exact hmove h (by simp)
  | @complete u op r x pc _ _ hs =>
    have ht : Function.update s.pc u (.unlock r) t ≠ .idle := hmove h (by simp)
    cases hs with
    | wake w op' _ _ => exact hmove ht (by simp)
    | forget _ => exact ht
  | ret u r _ =>
    have hne : t ≠ u := fun he => hr r (by rw [he])
    change Function.update s.pc u .idle t ≠ .idle
    rwa [Function.update_of_ne hne]

theorem Step.called {M : Ops σ Op Res Cond} {s s' : State Tid σ Op Res} {t : Tid} {op : Op}
    (hl : Step M s (.call t op) s') : s'.pc t ≠ .idle := by
  cases hl
  simp [State.goto]

theorem Step.returns {M : Ops σ Op Res Cond} {s s' : State Tid σ Op Res} {t : Tid} {r : Res}
    (hl : Step M s (.ret t r) s') : s.pc t = .unlock r := by
  cases hl
  assumption

theorem not_spurious_self (s : State Tid σ Op Res) : ¬ Spurious s s := by
  intro h
  obtain ⟨t,op,ht,he⟩ := h
  have hpc := congrFun (congrArg State.pc he) t
  simp [State.goto,ht] at hpc

end Threads

section Rank

variable [DecidableEq Tid] [Fintype Tid]

def State.rank (s : State Tid σ Op Res) : Nat := ∑ t, (s.pc t).rank

theorem rank_goto (s : State Tid σ Op Res) (t : Tid) (q : Pc Op Res) :
    (s.goto t q).rank + (s.pc t).rank = s.rank + q.rank :=
  sum_update Pc.rank s.pc t q

theorem Spurious.rank {s s' : State Tid σ Op Res} (h : Spurious s s') : s'.rank = s.rank+3 := by
  obtain ⟨t,op,ht,rfl⟩ := h
  have hg := rank_goto s t (.woken op)
  rw [ht] at hg
  simp only [Pc.rank] at hg
  omega

def RankChange (l : Label Tid Op Res) (n n' : Nat) : Prop :=
  match l with
  | .call _ _ => n' = n+7
  | .tau => n' < n
  | .ret _ _ => n' + 1 = n

theorem Signal.rank_le {M : Ops σ Op Res Cond} {c : Cond} {pc pc' : Tid → Pc Op Res}
    (h : Signal M c pc pc') : ∑ t, (pc' t).rank ≤ ∑ t, (pc t).rank + 3 := by
  cases h with
  | wake w op hw _ =>
    have hs := sum_update Pc.rank pc w (.woken op)
    rw [hw] at hs
    simp only [Pc.rank] at hs ⊢
    omega
  | forget _ => omega

/-- A signal costs its sender more than it gives to the one that it wakes. -/
theorem rank_step {M : Ops σ Op Res Cond} {s s' : State Tid σ Op Res} {l : Label Tid Op Res}
    (hl : Step M s l s') (hs : l = .tau → ¬ Spurious s s') : RankChange l s.rank s'.rank := by
  have hgo : ∀ {t : Tid} {p : Pc Op Res} (q : Pc Op Res), s.pc t = p →
      (s.goto t q).rank + p.rank = s.rank + q.rank := by
    intro t p q hp
    rw [← hp]
    exact rank_goto s t q
  cases hl with
  | call t op hp => exact hgo (.lock op) hp
  | acquire t op hp _ =>
    have h := hgo (.test op) hp
    change (s.goto t (.test op)).rank < s.rank
    simp only [Pc.rank] at h
    omega
  | reacquire t op hp _ =>
    have h := hgo (.test op) hp
    change (s.goto t (.test op)).rank < s.rank
    simp only [Pc.rank] at h
    omega
  | wait t op hp _ =>
    have h := hgo (.wait op) hp
    change (s.goto t (.wait op)).rank < s.rank
    simp only [Pc.rank] at h
    omega
  | pass t op hp _ =>
    have h := hgo (.body op) hp
    change (s.goto t (.body op)).rank < s.rank
    simp only [Pc.rank] at h
    omega
  | spurious t op hp => exact absurd ⟨t,op,hp,rfl⟩ (hs rfl)
  | @complete t op r x pc hp _ hsig =>
    have h := hgo (.unlock r) hp
    have hle := hsig.rank_le
    change ∑ u, (pc u).rank < s.rank
    change ∑ u, (Function.update s.pc t (.unlock r) u).rank + 5 = s.rank + 1 at h
    omega
  | ret t r hp => exact hgo .idle hp

end Rank

section Rest

variable [DecidableEq Tid]

structure Resting (s : State Tid σ Op Res) : Prop where
  free : s.owner = none
  outside (t : Tid) : s.pc t = .idle ∨ ∃ op, s.pc t = .wait op

def CanMove (M : Ops σ Op Res Cond) (s : State Tid σ Op Res) : Prop :=
  ∃ l s', Step M s l s' ∧ (∀ t op, l ≠ .call t op) ∧ ¬ Spurious s s'

theorem exists_signal (M : Ops σ Op Res Cond) (c : Cond) (pc : Tid → Pc Op Res) :
    ∃ pc', Signal M c pc pc' := by
  by_cases h : ∃ w op, pc w = .wait op ∧ M.cond op = c
  · obtain ⟨w,op,hw,hc⟩ := h
    exact ⟨_,.wake w op hw hc⟩
  · refine ⟨pc,.forget fun w op hw hc => h ⟨w,op,hw,hc⟩⟩

theorem not_spurious {s s' : State Tid σ Op Res} {t : Tid} (hp : ∀ op, s.pc t ≠ .wait op)
    (hne : s'.pc t ≠ s.pc t) : ¬ Spurious s s' := by
  intro h
  obtain ⟨u,op,hu,rfl⟩ := h
  have htu : t ≠ u := by
    intro he
    subst he
    exact hp op hu
  exact hne (Function.update_of_ne htu _ _)

theorem not_spurious_goto {s : State Tid σ Op Res} {t : Tid} {p q : Pc Op Res} (o : Option Tid)
    (hp : s.pc t = p) (hw : ∀ op, p ≠ .wait op) (hne : q ≠ p) :
    ¬ Spurious s { s.goto t q with owner := o } := by
  refine not_spurious (t := t) (by rw [hp]; exact hw) ?_
  simp only [State.goto]
  rw [Function.update_self,hp]
  exact hne

theorem rests_or_moves {M : Ops σ Op Res Cond} {s : State Tid σ Op Res} (hx : Exclusive s)
    (hbody : ∀ t op, s.pc t = .body op → ∃ r y, M.body op s.shared = some (r,y)) :
    CanMove M s ∨ Resting s := by
  by_cases hrest : ∀ t, s.pc t = .idle ∨ ∃ op, s.pc t = .wait op
  · refine .inr ⟨?_,hrest⟩
    cases ho : s.owner with
    | none => rfl
    | some t =>
      have hin := (hx t).mp ho
      rcases hrest t with hp | ⟨op,hp⟩ <;> simp [hp,Pc.inside] at hin
  left
  -- the owner of the lock can go on, and without one everybody on the way in
  by_cases hin : ∃ t, (s.pc t).inside = true
  · obtain ⟨t,ht⟩ := hin
    cases hp : s.pc t with
    | test op =>
      cases hb : M.blocked op s.shared with
      | true =>
        exact ⟨_,_,.wait t op hp hb,by simp,not_spurious_goto none hp (by simp) (by simp)⟩
      | false =>
        exact ⟨_,_,.pass t op hp hb,by simp,not_spurious_goto s.owner hp (by simp) (by simp)⟩
    | body op =>
      obtain ⟨r,y,hr⟩ := hbody t op hp
      obtain ⟨pc,hsig⟩ := exists_signal M (M.signals op) (Function.update s.pc t (.unlock r))
      refine ⟨_,_,.complete t op hp hr hsig,by simp,not_spurious (t := t) (by simp [hp]) ?_⟩
      intro he
      rw [hp] at he
      have hself : Function.update s.pc t (.unlock r) t = .body op := hsig.body_iff he
      rw [Function.update_self] at hself
      cases hself
    | unlock r => exact ⟨_,_,.ret t r hp,by simp,not_spurious_goto none hp (by simp) (by simp)⟩
    | _ => simp [hp,Pc.inside] at ht
  · have ho : s.owner = none := by
      cases ho : s.owner with
      | none => rfl
      | some t => exact absurd ⟨t,(hx t).mp ho⟩ hin
    obtain ⟨t,ht⟩ := not_forall.mp hrest
    cases hp : s.pc t with
    | idle => exact absurd (.inl hp) ht
    | wait op => exact absurd (.inr ⟨op,hp⟩) ht
    | lock op =>
      exact ⟨_,_,.acquire t op hp ho,by simp,not_spurious_goto (some t) hp (by simp) (by simp)⟩
    | woken op =>
      exact ⟨_,_,.reacquire t op hp ho,by simp,not_spurious_goto (some t) hp (by simp) (by simp)⟩
    | test op => exact absurd ⟨t,by rw [hp]; rfl⟩ hin
    | body op => exact absurd ⟨t,by rw [hp]; rfl⟩ hin
    | unlock r => exact absurd ⟨t,by rw [hp]; rfl⟩ hin

omit [DecidableEq Tid] in
theorem Resting.nothing [Fintype Tid] [DecidableEq Cond] {M : Ops σ Op Res Cond}
    {avail : Cond → σ → Nat} {s : State Tid σ Op Res} (h : Resting s)
    (hn : NoLostWakeup M avail s) {t : Tid} {op : Op} (ht : s.pc t = .wait op) :
    avail (M.cond op) s.shared = 0 := by
  have hzero : ∀ p : Pc Op Res → Bool, p .idle = false → (∀ op, p (.wait op) = false) →
      tally p s.pc = 0 := by
    intro p hi hw
    by_contra hpos
    obtain ⟨u,hu⟩ := tally_pos.mp (Nat.pos_of_ne_zero hpos)
    rcases h.outside u with hp | ⟨op,hp⟩
    · rw [hp,hi] at hu
      cases hu
    · rw [hp,hw] at hu
      cases hu
  have hle := hn (M.cond op) (tally_pos.mpr ⟨t,by simp [ht,asleep]⟩)
  rw [hzero _ rfl fun _ => rfl,hzero _ rfl fun _ => rfl] at hle
  omega

end Rest

end MesaMonitor
