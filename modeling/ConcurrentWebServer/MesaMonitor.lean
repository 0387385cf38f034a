import Mathlib.Logic.Function.Basic
import Mathlib.Logic.Relation
import Mathlib.Algebra.BigOperators.Group.Finset.Piecewise
import Mathlib.Tactic.Common
set_option autoImplicit false

/-!
Mesa-style monitors: operations of the form

  lock; while (blocked) wait(cond); body; signal(signals); unlock

on a shared state, run by any number of threads. A signal wakes one waiter of
its condition or is forgotten; a waiter may also wake for no reason; a woken
thread competes for the lock with everybody else.
-/

namespace MesaMonitor

structure Ops (σ Op Res Cond : Type) where
  blocked : Op → σ → Bool
  cond : Op → Cond
  signals : Op → Cond
  body : Op → σ → Option (Res × σ)

inductive Pc (Op Res : Type) where
  | idle : Pc Op Res
  | lock : Op → Pc Op Res
  | test : Op → Pc Op Res
  | wait : Op → Pc Op Res
  | woken : Op → Pc Op Res
  | body : Op → Pc Op Res
  | unlock : Res → Pc Op Res

def Pc.inside {Op Res : Type} : Pc Op Res → Bool
  | .test _ | .body _ | .unlock _ => true
  | .idle | .lock _ | .wait _ | .woken _ => false

structure State (Tid σ Op Res : Type) where
  shared : σ
  owner : Option Tid
  pc : Tid → Pc Op Res
  log : List Res

inductive Label (Tid Op Res : Type) where
  | call : Tid → Op → Label Tid Op Res
  | tau : Label Tid Op Res
  | ret : Tid → Res → Label Tid Op Res

def start {σ : Type} (Tid Op Res : Type) (x : σ) : State Tid σ Op Res :=
  ⟨x,none,fun _ => .idle,[]⟩

variable {Tid σ Op Res Cond : Type} [DecidableEq Tid]

inductive Signal (M : Ops σ Op Res Cond) (c : Cond) :
    (Tid → Pc Op Res) → (Tid → Pc Op Res) → Prop where
  | wake {pc : Tid → Pc Op Res} (w : Tid) (op : Op) :
      pc w = .wait op → M.cond op = c → Signal M c pc (Function.update pc w (.woken op))
  | forget {pc : Tid → Pc Op Res} :
      (∀ w op, pc w = .wait op → M.cond op ≠ c) → Signal M c pc pc

def State.goto (s : State Tid σ Op Res) (t : Tid) (p : Pc Op Res) : State Tid σ Op Res :=
  { s with pc := Function.update s.pc t p }

/-- The log is a ghost: the results in the order their bodies completed. A
signal is part of the completing step, since its sender still holds the lock. -/
inductive Step (M : Ops σ Op Res Cond) :
    State Tid σ Op Res → Label Tid Op Res → State Tid σ Op Res → Prop where
  | call {s : State Tid σ Op Res} (t : Tid) (op : Op) :
      s.pc t = .idle → Step M s (.call t op) (s.goto t (.lock op))
  | acquire {s : State Tid σ Op Res} (t : Tid) (op : Op) :
      s.pc t = .lock op → s.owner = none →
      Step M s .tau { s.goto t (.test op) with owner := some t }
  | reacquire {s : State Tid σ Op Res} (t : Tid) (op : Op) :
      s.pc t = .woken op → s.owner = none →
      Step M s .tau { s.goto t (.test op) with owner := some t }
  | wait {s : State Tid σ Op Res} (t : Tid) (op : Op) :
      s.pc t = .test op → M.blocked op s.shared = true →
      Step M s .tau { s.goto t (.wait op) with owner := none }
  | pass {s : State Tid σ Op Res} (t : Tid) (op : Op) :
      s.pc t = .test op → M.blocked op s.shared = false →
      Step M s .tau (s.goto t (.body op))
  | spurious {s : State Tid σ Op Res} (t : Tid) (op : Op) :
      s.pc t = .wait op → Step M s .tau (s.goto t (.woken op))
  | complete {s : State Tid σ Op Res} (t : Tid) (op : Op) {r : Res} {x : σ}
      {pc : Tid → Pc Op Res} :
      s.pc t = .body op → M.body op s.shared = some (r,x) →
      Signal M (M.signals op) (Function.update s.pc t (.unlock r)) pc →
      Step M s .tau { s with shared := x, pc := pc, log := s.log ++ [r] }
  | ret {s : State Tid σ Op Res} (t : Tid) (r : Res) :
      s.pc t = .unlock r →
      Step M s (.ret t r) { s.goto t .idle with owner := none }

def Reaches (M : Ops σ Op Res Cond) : State Tid σ Op Res → State Tid σ Op Res → Prop :=
  Relation.ReflTransGen fun s s' => ∃ l, Step M s l s'

theorem Reaches.invariant {M : Ops σ Op Res Cond} {Inv : State Tid σ Op Res → Prop}
    (hstep : ∀ s l s', Inv s → Step M s l s' → Inv s') {s s' : State Tid σ Op Res}
    (h : Reaches M s s') (hs : Inv s) : Inv s' := by
  induction h with
  | refl => exact hs
  | tail _ hl ih =>
    obtain ⟨l,hl⟩ := hl
    exact hstep _ l _ ih hl

theorem Step.idle {M : Ops σ Op Res Cond} {s s' : State Tid σ Op Res} {l : Label Tid Op Res}
    (hl : Step M s l s') {t : Tid} (h : s.pc t = .idle) (hc : ∀ op, l ≠ .call t op) :
    s'.pc t = .idle := by
  have hmove : ∀ {u : Tid} {q : Pc Op Res}, s.pc u ≠ .idle →
      Function.update s.pc u q t = .idle := by
    intro u q hu
    have hne : t ≠ u := by
      rintro rfl
      exact hu h
    rw [Function.update_of_ne hne,h]
  cases hl with
  | call u op _ =>
    have hne : t ≠ u := fun he => hc op (by rw [he])
    exact (Function.update_of_ne hne _ _).trans h
  | acquire u op hp _ => exact hmove (by simp [hp])
  | reacquire u op hp _ => exact hmove (by simp [hp])
  | wait u op hp _ => exact hmove (by simp [hp])
  | pass u op hp _ => exact hmove (by simp [hp])
  | spurious u op hp => exact hmove (by simp [hp])
  | @complete u op r x pc hp _ hs =>
    have ht : Function.update s.pc u (.unlock r) t = .idle := hmove (by simp [hp])
    cases hs with
    | wake w op' hw _ =>
      have hne : t ≠ w := by
        rintro rfl
        rw [ht] at hw
        cases hw
      exact (Function.update_of_ne hne _ _).trans ht
    | forget _ => exact ht
  | ret u r hp => exact hmove (by simp [hp])

theorem Step.returned {M : Ops σ Op Res Cond} {s s' : State Tid σ Op Res} {t : Tid} {r : Res}
    (hl : Step M s (.ret t r) s') : s'.pc t = .idle := by
  cases hl
  exact Function.update_self _ _ _

theorem goes_through {M : Ops σ Op Res Cond} {s : State Tid σ Op Res} {t : Tid} {op : Op} {r : Res}
    {x : σ} (ho : s.owner = none) (hi : ∀ u, s.pc u = .idle)
    (hb : M.blocked op s.shared = false) (hr : M.body op s.shared = some (r,x)) :
    ∃ s₁ s₂ s₃ s₄, Step M s (.call t op) s₁ ∧ Step M s₁ .tau s₂ ∧ Step M s₂ .tau s₃ ∧
      Step M s₃ .tau s₄ ∧ Step M s₄ (.ret t r) { s with shared := x, log := s.log ++ [r] } := by
  have hup : ∀ p q : Pc Op Res,
      Function.update (Function.update s.pc t p) t q = Function.update s.pc t q :=
    fun p q => Function.update_idem _ _ _
  have hself : ∀ p : Pc Op Res, Function.update s.pc t p t = p :=
    fun p => Function.update_self _ _ _
  have hquiet : ∀ u op', Function.update s.pc t (.unlock r) u = .wait op' →
      M.cond op' ≠ M.signals op := by
    intro u op' hu
    by_cases he : u = t
    · subst he
      rw [hself] at hu
      cases hu
    · rw [Function.update_of_ne he,hi] at hu
      cases hu
  have hback : Function.update s.pc t .idle = s.pc := by
    rw [← hi t]
    exact Function.update_eq_self _ _
  refine ⟨{ s with pc := Function.update s.pc t (.lock op) },
    { s with pc := Function.update s.pc t (.test op), owner := some t },
    { s with pc := Function.update s.pc t (.body op), owner := some t },
    { s with
      pc := Function.update s.pc t (.unlock r), owner := some t, shared := x,
      log := s.log ++ [r] },.call t op (hi t),?_,?_,?_,?_⟩
  · have hstep := Step.acquire (M := M)
      (s := { s with pc := Function.update s.pc t (.lock op) }) t op (hself _) ho
    simpa only [State.goto,hup] using hstep
  · have hstep := Step.pass (M := M)
      (s := { s with pc := Function.update s.pc t (.test op), owner := some t }) t op (hself _) hb
    simpa only [State.goto,hup] using hstep
  · have hstep := Step.complete (M := M)
      (s := { s with pc := Function.update s.pc t (.body op), owner := some t }) t op (hself _) hr
      (.forget (by simpa only [hup] using hquiet))
    simpa only [hup] using hstep
  · have hstep := Step.ret (M := M)
      (s := { s with
        pc := Function.update s.pc t (.unlock r), owner := some t, shared := x,
        log := s.log ++ [r] }) t r (hself _)
    simp only [State.goto,hup,hback] at hstep
    rw [← ho] at hstep
    exact hstep

def Exclusive (s : State Tid σ Op Res) : Prop :=
  ∀ t, s.owner = some t ↔ (s.pc t).inside = true

omit [DecidableEq Tid] in
theorem Exclusive.unique {s : State Tid σ Op Res} (h : Exclusive s) {t u : Tid}
    (ht : (s.pc t).inside = true) (hu : (s.pc u).inside = true) : t = u := by
  have h₁ := (h t).mpr ht
  have h₂ := (h u).mpr hu
  rw [h₁] at h₂
  exact Option.some.inj h₂

theorem Exclusive.move {s : State Tid σ Op Res} (h : Exclusive s) {t : Tid} {p : Pc Op Res}
    (hp : p.inside = (s.pc t).inside) (u : Tid) :
    s.owner = some u ↔ (Function.update s.pc t p u).inside = true := by
  by_cases hu : u = t
  · subst hu
    rw [Function.update_self,hp]
    exact h u
  · rw [Function.update_of_ne hu]
    exact h u

theorem Exclusive.enter {s : State Tid σ Op Res} (h : Exclusive s) (ho : s.owner = none)
    {t : Tid} {p : Pc Op Res} (hp : p.inside = true) (u : Tid) :
    some t = some u ↔ (Function.update s.pc t p u).inside = true := by
  by_cases hu : u = t
  · subst hu
    simp [hp]
  · have hn := h u
    rw [ho] at hn
    rw [Function.update_of_ne hu,← hn]
    simp [Ne.symm hu]

theorem Exclusive.leave {s : State Tid σ Op Res} (h : Exclusive s) {t : Tid}
    (ht : (s.pc t).inside = true) {p : Pc Op Res} (hp : p.inside = false) (u : Tid) :
    none = some u ↔ (Function.update s.pc t p u).inside = true := by
  by_cases hu : u = t
  · subst hu
    simp [hp]
  · rw [Function.update_of_ne hu]
    constructor
    · intro hn
      cases hn
    · intro hi
      exact absurd (h.unique hi ht) hu

theorem Signal.inside {M : Ops σ Op Res Cond} {c : Cond} {pc pc' : Tid → Pc Op Res}
    (h : Signal M c pc pc') (u : Tid) : (pc' u).inside = (pc u).inside := by
  cases h with
  | wake w op hw _ =>
    by_cases hu : u = w
    · subst hu
      rw [Function.update_self,hw]
      rfl
    · rw [Function.update_of_ne hu]
  | forget _ => rfl

omit [DecidableEq Tid] in
theorem exclusive_start (x : σ) : Exclusive (start Tid Op Res x) := by
  intro t
  simp [start,Pc.inside]

theorem exclusive_step {M : Ops σ Op Res Cond} {s s' : State Tid σ Op Res}
    {l : Label Tid Op Res} (h : Exclusive s) (hl : Step M s l s') : Exclusive s' := by
  intro u
  cases hl with
  | call t op hp => exact h.move (by rw [hp]; rfl) u
  | acquire t op _ ho => exact h.enter ho rfl u
  | reacquire t op _ ho => exact h.enter ho rfl u
  | wait t op hp _ => exact h.leave (by rw [hp]; rfl) rfl u
  | pass t op hp _ => exact h.move (by rw [hp]; rfl) u
  | spurious t op hp => exact h.move (by rw [hp]; rfl) u
  | complete t op hp _ hs =>
    change s.owner = some u ↔ _
    rw [hs.inside u]
    exact h.move (by rw [hp]; rfl) u
  | ret t r hp => exact h.leave (by rw [hp]; rfl) rfl u

def Ready (M : Ops σ Op Res Cond) (s : State Tid σ Op Res) : Prop :=
  ∀ t op, s.pc t = .body op → M.blocked op s.shared = false

theorem Signal.body_iff {M : Ops σ Op Res Cond} {c : Cond} {pc pc' : Tid → Pc Op Res}
    (h : Signal M c pc pc') {u : Tid} {op : Op} (hu : pc' u = .body op) :
    pc u = .body op := by
  cases h with
  | wake w op' hw _ =>
    by_cases he : u = w
    · subst he
      simp at hu
    · rwa [Function.update_of_ne he] at hu
  | forget _ => exact hu

theorem Ready.move {M : Ops σ Op Res Cond} {s : State Tid σ Op Res} (h : Ready M s) {t : Tid}
    {p : Pc Op Res} (hp : ∀ op, p = .body op → M.blocked op s.shared = false) (u : Tid)
    (op : Op) (hu : Function.update s.pc t p u = .body op) :
    M.blocked op s.shared = false := by
  by_cases he : u = t
  · subst he
    rw [Function.update_self] at hu
    exact hp op hu
  · rw [Function.update_of_ne he] at hu
    exact h u op hu

theorem ready_step {M : Ops σ Op Res Cond} {s s' : State Tid σ Op Res}
    {l : Label Tid Op Res} (hx : Exclusive s) (h : Ready M s) (hl : Step M s l s') :
    Ready M s' := by
  intro u o hu
  cases hl with
  | call t op _ => exact h.move (by simp) u o hu
  | acquire t op _ _ => exact h.move (by simp) u o hu
  | reacquire t op _ _ => exact h.move (by simp) u o hu
  | wait t op _ _ => exact h.move (by simp) u o hu
  | pass t op _ hb =>
    refine h.move (fun o' he => ?_) u o hu
    cases he
    exact hb
  | spurious t op _ => exact h.move (by simp) u o hu
  | @complete t op r x pc hp _ hs =>
    -- only the completing thread was inside, and it has left its body
    have hu' := hs.body_iff hu
    by_cases he : u = t
    · subst he
      simp at hu'
    · rw [Function.update_of_ne he] at hu'
      exact absurd (hx.unique (by rw [hu']; rfl) (by rw [hp]; rfl)) he
  | ret t r _ => exact h.move (by simp) u o hu

inductive Execs (M : Ops σ Op Res Cond) (x : σ) : List Res → σ → Prop where
  | nil : Execs M x [] x
  | snoc {es : List Res} {y z : σ} {op : Op} {r : Res} :
      Execs M x es y → M.blocked op y = false → M.body op y = some (r,z) →
      Execs M x (es ++ [r]) z

theorem Execs.invariant {M : Ops σ Op Res Cond} {I : σ → Prop}
    (hstep : ∀ op y r z, I y → M.blocked op y = false → M.body op y = some (r,z) → I z)
    {x y : σ} {es : List Res} (h : Execs M x es y) (hx : I x) : I y := by
  induction h with
  | nil => exact hx
  | snoc _ hb hr ih => exact hstep _ _ _ _ ih hb hr

theorem Execs.append {M : Ops σ Op Res Cond} {x y z : σ} {es fs : List Res}
    (h : Execs M x es y) (k : Execs M y fs z) : Execs M x (es ++ fs) z := by
  induction k with
  | nil => rwa [List.append_nil]
  | snoc _ hb hr ih =>
    rw [← List.append_assoc]
    exact ih.snoc hb hr

theorem Execs.reaches {M : Ops σ Op Res Cond} {x y : σ} {es : List Res} (h : Execs M x es y)
    (t : Tid) : Reaches M (start Tid Op Res x) ⟨y,none,fun _ => .idle,es⟩ := by
  induction h with
  | nil => exact .refl
  | @snoc es y z op r _ hb hr ih =>
    obtain ⟨_,_,_,_,hcall,hlock,hpass,hbody,hret⟩ :=
      goes_through (s := ⟨y,none,fun _ => .idle,es⟩) (t := t) rfl (fun _ => rfl) hb hr
    exact ((((ih.tail ⟨_,hcall⟩).tail ⟨_,hlock⟩).tail ⟨_,hpass⟩).tail ⟨_,hbody⟩).tail ⟨_,hret⟩

theorem Execs.cut {M : Ops σ Op Res Cond} {x z : σ} {es fs : List Res}
    (h : Execs M x (es ++ fs) z) : ∃ y, Execs M x es y ∧ Execs M y fs z := by
  induction fs using List.reverseRecOn generalizing z with
  | nil => exact ⟨z,by simpa using h,.nil⟩
  | append_singleton fs r ih =>
    rw [← List.append_assoc] at h
    generalize hl : es ++ fs ++ [r] = l at h
    cases h with
    | nil => simp at hl
    | snoc h hb hr =>
      obtain ⟨rfl,hr'⟩ := List.append_inj' hl rfl
      cases hr'
      obtain ⟨y,h₁,h₂⟩ := ih h
      exact ⟨y,h₁,h₂.snoc hb hr⟩

theorem Execs.eq_of_nil {M : Ops σ Op Res Cond} {x y : σ} (h : Execs M x [] y) : y = x := by
  generalize hl : ([] : List Res) = l at h
  cases h with
  | nil => rfl
  | snoc _ _ _ => simp at hl

theorem Execs.single {M : Ops σ Op Res Cond} {x y : σ} {r : Res} (h : Execs M x [r] y) :
    ∃ op, M.blocked op x = false ∧ M.body op x = some (r,y) := by
  generalize hl : [r] = l at h
  cases h with
  | nil => cases hl
  | @snoc es z _ op r' h hb hr =>
    have hnil : es = [] := by
      have hlen := congrArg List.length hl
      simpa using hlen.symm
    subst hnil
    cases hl
    have hz := h.eq_of_nil
    subst hz
    exact ⟨op,hb,hr⟩

def Ops.exec (M : Ops σ Op Res Cond) : List Op → σ → Option (List Res × σ)
  | [], x => some ([],x)
  | op :: ops, x =>
      if M.blocked op x then none else do
        let (r,y) ← M.body op x
        let (rs,z) ← M.exec ops y
        pure (r :: rs,z)

theorem Ops.exec_execs {M : Ops σ Op Res Cond} {ops : List Op} {x : σ} {rs : List Res}
    (h : (M.exec ops x).map Prod.fst = some rs) : ∃ y, Execs M x rs y := by
  induction ops generalizing x rs with
  | nil =>
    cases h
    exact ⟨x,.nil⟩
  | cons op ops ih =>
    cases hb : M.blocked op x with
    | true => simp [exec,hb] at h
    | false =>
      cases hr : M.body op x with
      | none => simp [exec,hb,hr] at h
      | some p =>
        obtain ⟨r,y⟩ := p
        cases he : M.exec ops y with
        | none => simp [exec,hb,hr,he] at h
        | some q =>
          have hq : rs = r :: q.1 := by simpa [exec,hb,hr,he] using h.symm
          subst hq
          obtain ⟨z,hz⟩ := ih (congrArg (Option.map Prod.fst) he)
          exact ⟨z,(Execs.snoc .nil hb hr).append hz⟩

structure Sound (M : Ops σ Op Res Cond) (x : σ) (s : State Tid σ Op Res) : Prop where
  exclusive : Exclusive s
  ready : Ready M s
  execs : Execs M x s.log s.shared

omit [DecidableEq Tid] in
theorem sound_start (M : Ops σ Op Res Cond) (x : σ) : Sound M x (start Tid Op Res x) :=
  ⟨exclusive_start x,fun t op h => by simp [start] at h,.nil⟩

theorem sound_step {M : Ops σ Op Res Cond} {x : σ} {s s' : State Tid σ Op Res}
    {l : Label Tid Op Res} (h : Sound M x s) (hl : Step M s l s') : Sound M x s' := by
  refine ⟨exclusive_step h.exclusive hl,ready_step h.exclusive h.ready hl,?_⟩
  cases hl with
  | complete t op hp hr _ => exact h.execs.snoc (h.ready _ _ hp) hr
  | _ => exact h.execs

/-- Every interleaving is equivalent to executing the completed operations in
the order of the log. -/
theorem reaches_sound {M : Ops σ Op Res Cond} {x : σ} {s : State Tid σ Op Res}
    (h : Reaches M (start Tid Op Res x) s) : Sound M x s :=
  h.invariant (fun _ _ _ => sound_step) (sound_start M x)

section Conservation

variable [Fintype Tid]

theorem sum_update {P A : Type} [AddCommMonoid A] (f : P → A) (pc : Tid → P) (t : Tid) (q : P) :
    ∑ u, f (Function.update pc t q u) + f (pc t) = ∑ u, f (pc u) + f q := by
  have hrest : ∑ u ∈ Finset.univ.erase t, f (Function.update pc t q u) =
      ∑ u ∈ Finset.univ.erase t, f (pc u) := by
    apply Finset.sum_congr rfl
    intro u hu
    rw [Function.update_of_ne (Finset.ne_of_mem_erase hu)]
  rw [← Finset.add_sum_erase _ _ (Finset.mem_univ t),hrest,Function.update_self,
    ← Finset.add_sum_erase _ (fun u => f (pc u)) (Finset.mem_univ t),add_right_comm,
    add_right_comm (f (pc t)),add_comm (f q)]

structure Weights (Op Res σ A : Type) where
  op : Op → A
  res : Res → A
  shared : σ → A

variable {A : Type} [AddCancelCommMonoid A] (w : Weights Op Res σ A)

def Weights.pc : Pc Op Res → A
  | .idle => 0
  | .lock op | .test op | .wait op | .woken op | .body op => w.op op
  | .unlock r => w.res r

def Weights.total (s : State Tid σ Op Res) : A := ∑ t, w.pc (s.pc t) + w.shared s.shared

def Weights.Conserved (M : Ops σ Op Res Cond) (I : σ → Prop) : Prop :=
  ∀ op x r y, I x → M.blocked op x = false → M.body op x = some (r,y) →
    w.res r + w.shared y = w.op op + w.shared x

def Weights.into : Label Tid Op Res → A
  | .call _ op => w.op op
  | .tau | .ret _ _ => 0

def Weights.out : Label Tid Op Res → A
  | .ret _ r => w.res r
  | .tau | .call _ _ => 0

theorem Weights.sum_move {pc : Tid → Pc Op Res} {t : Tid} {q : Pc Op Res}
    (h : w.pc (pc t) = w.pc q) : ∑ u, w.pc (Function.update pc t q u) = ∑ u, w.pc (pc u) := by
  have hs := sum_update w.pc pc t q
  rw [h] at hs
  exact add_right_cancel hs

theorem Weights.total_move (s : State Tid σ Op Res) {t : Tid} {q : Pc Op Res}
    (h : w.pc (s.pc t) = w.pc q) (o : Option Tid) :
    w.total { s.goto t q with owner := o } = w.total s := by
  simp only [total,State.goto]
  rw [w.sum_move h]

theorem Weights.sum_signal {M : Ops σ Op Res Cond} {c : Cond} {pc pc' : Tid → Pc Op Res}
    (h : Signal M c pc pc') : ∑ u, w.pc (pc' u) = ∑ u, w.pc (pc u) := by
  cases h with
  | wake v op hv _ => exact w.sum_move (by rw [hv]; rfl)
  | forget _ => rfl

/-- Nothing is lost and nothing is made up on the way through the monitor. -/
theorem Weights.total_step {M : Ops σ Op Res Cond} {I : σ → Prop} (hw : w.Conserved M I)
    {s s' : State Tid σ Op Res} {l : Label Tid Op Res} (hI : I s.shared) (hr : Ready M s)
    (hl : Step M s l s') : w.total s' + w.out l = w.total s + w.into l := by
  cases hl with
  | call t op hp =>
    have hs := sum_update w.pc s.pc t (.lock op)
    rw [hp] at hs
    change _ + 0 = _ + w.op op at hs
    rw [add_zero] at hs
    simp only [total,State.goto,into,out,add_zero,hs]
    rw [add_right_comm]
  | acquire t op hp _ => exact congrArg (· + 0) (w.total_move s (by rw [hp]; rfl) _)
  | reacquire t op hp _ => exact congrArg (· + 0) (w.total_move s (by rw [hp]; rfl) _)
  | wait t op hp _ => exact congrArg (· + 0) (w.total_move s (by rw [hp]; rfl) _)
  | pass t op hp _ => exact congrArg (· + 0) (w.total_move s (by rw [hp]; rfl) s.owner)
  | spurious t op hp => exact congrArg (· + 0) (w.total_move s (by rw [hp]; rfl) s.owner)
  | @complete t op r x pc hp hb hsig =>
    have hs := sum_update w.pc s.pc t (.unlock r)
    rw [hp] at hs
    change _ + w.op op = _ + w.res r at hs
    have hc := hw op _ r x hI (hr t op hp) hb
    simp only [total,into,out,add_zero,w.sum_signal hsig]
    apply add_right_cancel (b := w.op op)
    calc ∑ u, w.pc (Function.update s.pc t (.unlock r) u) + w.shared x + w.op op
        = ∑ u, w.pc (Function.update s.pc t (.unlock r) u) + w.op op + w.shared x := by
          rw [add_right_comm]
      _ = ∑ u, w.pc (s.pc u) + (w.res r + w.shared x) := by rw [hs,add_assoc]
      _ = ∑ u, w.pc (s.pc u) + w.shared s.shared + w.op op := by
        rw [hc,add_comm (w.op op),← add_assoc]
  | ret t r hp =>
    have hs := sum_update w.pc s.pc t .idle
    rw [hp] at hs
    change _ + w.res r = _ + 0 at hs
    rw [add_zero] at hs
    simp only [total,State.goto,into,out,add_zero,← hs]
    rw [add_right_comm]

end Conservation

section Wakeups

variable [Fintype Tid] [DecidableEq Cond]

def tally (p : Pc Op Res → Bool) (pc : Tid → Pc Op Res) : Nat :=
  (Finset.univ.filter fun t => p (pc t) = true).card

omit [DecidableEq Tid] in
theorem tally_eq_sum (p : Pc Op Res → Bool) (pc : Tid → Pc Op Res) :
    tally p pc = ∑ t, (p (pc t)).toNat := by
  rw [tally,Finset.card_filter]
  apply Finset.sum_congr rfl
  intro t _
  cases p (pc t) <;> rfl

theorem tally_update (p : Pc Op Res → Bool) (pc : Tid → Pc Op Res) (t : Tid)
    (q : Pc Op Res) :
    tally p (Function.update pc t q) + (p (pc t)).toNat = tally p pc + (p q).toNat := by
  rw [tally_eq_sum,tally_eq_sum]
  exact sum_update (fun x => (p x).toNat) pc t q

omit [DecidableEq Tid] in
theorem tally_pos {p : Pc Op Res → Bool} {pc : Tid → Pc Op Res} :
    0 < tally p pc ↔ ∃ t, p (pc t) = true := by
  simp [tally,Finset.card_pos,Finset.Nonempty]

def asleep (M : Ops σ Op Res Cond) (c : Cond) : Pc Op Res → Bool
  | .wait op => M.cond op == c
  | _ => false

def woken (M : Ops σ Op Res Cond) (c : Cond) : Pc Op Res → Bool
  | .woken op => M.cond op == c
  | _ => false

def running (M : Ops σ Op Res Cond) (c : Cond) : Pc Op Res → Bool
  | .test op | .body op => M.cond op == c
  | _ => false

/-- `avail c` counts the operations waiting on `c` that could go ahead: each
takes one unit, and one signal is sent for each unit that is added. -/
structure UnitSignals (M : Ops σ Op Res Cond) (I : σ → Prop) (avail : Cond → σ → Nat) :
    Prop where
  blocked {op : Op} {x : σ} : I x → M.blocked op x = true → avail (M.cond op) x = 0
  body {op : Op} {x y : σ} {r : Res} : I x → M.blocked op x = false →
    M.body op x = some (r,y) → ∀ c,
      avail c y + (M.cond op == c).toNat ≤ avail c x + (M.signals op == c).toNat

/-- While somebody sleeps on `c`, no more units are available than threads are
on their way to take one. -/
def NoLostWakeup (M : Ops σ Op Res Cond) (avail : Cond → σ → Nat)
    (s : State Tid σ Op Res) : Prop :=
  ∀ c, 0 < tally (asleep M c) s.pc →
    avail c s.shared ≤ tally (woken M c) s.pc + tally (running M c) s.pc

/-- What a signal does to the three counts. -/
theorem Signal.tallies {M : Ops σ Op Res Cond} {c : Cond} {pc pc' : Tid → Pc Op Res}
    (h : Signal M c pc pc') (d : Cond) :
    tally (running M d) pc' = tally (running M d) pc ∧
    (0 < tally (asleep M d) pc' →
      0 < tally (asleep M d) pc ∧
      tally (woken M d) pc + (c == d).toNat ≤ tally (woken M d) pc') := by
  cases h with
  | wake w op hw hc =>
    have ha := tally_update (asleep M d) pc w (.woken op)
    have hk := tally_update (woken M d) pc w (.woken op)
    have hr := tally_update (running M d) pc w (.woken op)
    rw [hw] at ha hk hr
    subst hc
    simp only [asleep,woken,running,Bool.toNat_false] at ha hk hr
    refine ⟨by omega,fun _ => ?_⟩
    cases hd : (M.cond op == d) <;> simp only [hd,Bool.toNat_false,Bool.toNat_true] at ha hk ⊢ <;>
      omega
  | forget hn =>
    refine ⟨rfl,fun hpos => ⟨hpos,?_⟩⟩
    -- somebody sleeps on `d`, so the forgotten signal was for another condition
    obtain ⟨u,hu⟩ := tally_pos.mp hpos
    have hcd : (c == d) = false := by
      cases hp : pc u with
      | wait op =>
        have hne := hn u op hp
        rw [hp] at hu
        simp only [asleep,beq_iff_eq] at hu
        subst hu
        simpa [beq_eq_false_iff_ne] using hne.symm
      | _ => simp [hp,asleep] at hu
    simp [hcd]

theorem NoLostWakeup.move {M : Ops σ Op Res Cond} {avail : Cond → σ → Nat}
    {s : State Tid σ Op Res} (h : NoLostWakeup M avail s) {t : Tid} {q : Pc Op Res}
    (hq : ∀ c, avail c s.shared = 0 ∨
      ((asleep M c q).toNat ≤ (asleep M c (s.pc t)).toNat ∧
        (woken M c (s.pc t)).toNat + (running M c (s.pc t)).toNat ≤
          (woken M c q).toNat + (running M c q).toNat)) (o : Option Tid) :
    NoLostWakeup M avail { s.goto t q with owner := o } := by
  intro c hpos
  have ha := tally_update (asleep M c) s.pc t q
  have hk := tally_update (woken M c) s.pc t q
  have hg := tally_update (running M c) s.pc t q
  have hc := h c
  simp only [State.goto] at hpos ⊢
  rcases hq c with h0 | ⟨h₁,h₂⟩ <;> omega

theorem noLostWakeup_step {M : Ops σ Op Res Cond} {I : σ → Prop} {avail : Cond → σ → Nat}
    (hu : UnitSignals M I avail) {s s' : State Tid σ Op Res} {l : Label Tid Op Res}
    (hI : I s.shared) (hr : Ready M s) (h : NoLostWakeup M avail s) (hl : Step M s l s') :
    NoLostWakeup M avail s' := by
  cases hl with
  | call t op hp => exact h.move (fun c => .inr (by simp [hp,asleep,woken,running])) s.owner
  | acquire t op hp _ => exact h.move (fun c => .inr (by simp [hp,asleep,woken,running])) _
  | reacquire t op hp _ => exact h.move (fun c => .inr (by simp [hp,asleep,woken,running])) _
  | wait t op hp hb =>
    refine h.move (fun c => ?_) _
    by_cases hd : M.cond op = c
    · -- a new sleeper of `c` has just seen that nothing is available
      exact .inl (hd ▸ hu.blocked hI hb)
    · exact .inr (by simp [hp,asleep,woken,running,beq_eq_false_iff_ne.mpr hd])
  | pass t op hp _ => exact h.move (fun c => .inr (by simp [hp,asleep,woken,running])) s.owner
  | spurious t op hp => exact h.move (fun c => .inr (by simp [hp,asleep,woken,running])) s.owner
  | @complete t op r x pc hp hb hs =>
    intro c hpos
    obtain ⟨hsr,hsa⟩ := hs.tallies c
    obtain ⟨hpos',hsk⟩ := hsa hpos
    have hc := h c
    have hbody := hu.body hI (hr _ _ hp) hb c
    have ha := tally_update (asleep M c) s.pc t (.unlock r)
    have hk := tally_update (woken M c) s.pc t (.unlock r)
    have hg := tally_update (running M c) s.pc t (.unlock r)
    rw [hp] at ha hk hg
    simp only [asleep,woken,running,Bool.toNat_false] at ha hk hg hpos' ⊢
    omega
  | ret t r hp => exact h.move (fun c => .inr (by simp [hp,asleep,woken,running])) _

omit [DecidableEq Tid] in
theorem noLostWakeup_start (M : Ops σ Op Res Cond) (avail : Cond → σ → Nat) (x : σ) :
    NoLostWakeup M avail (start Tid Op Res x) := by
  intro c hpos
  simp [start,tally,asleep] at hpos

theorem reaches_noLostWakeup {M : Ops σ Op Res Cond} {I : σ → Prop} {avail : Cond → σ → Nat}
    (hu : UnitSignals M I avail) {x : σ} (hx : I x)
    (hI : ∀ op y r z, I y → M.blocked op y = false → M.body op y = some (r,z) → I z)
    {s : State Tid σ Op Res} (h : Reaches M (start Tid Op Res x) s) :
    NoLostWakeup M avail s := by
  have hstep : ∀ (s : State Tid σ Op Res) (l : Label Tid Op Res) (s' : State Tid σ Op Res),
      Sound M x s ∧ NoLostWakeup M avail s → Step M s l s' →
      Sound M x s' ∧ NoLostWakeup M avail s' := by
    intro s l s' hs hl
    have hshared := hs.1.execs.invariant hI hx
    exact ⟨sound_step hs.1 hl,noLostWakeup_step hu hshared hs.1.ready hs.2 hl⟩
  exact (h.invariant hstep ⟨sound_start M x,noLostWakeup_start M avail x⟩).2

end Wakeups

end MesaMonitor
