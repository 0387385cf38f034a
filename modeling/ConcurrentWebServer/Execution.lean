import Mathlib.Logic.Function.Iterate
import Mathlib.Tactic.Common
set_option autoImplicit false

/-!
Outcomes of sequential code that can fail an assertion or loop. Loops take a
fuel argument; a run that uses it up is `unfinished`, never a result.
-/

namespace Execution

inductive Exec (α : Type) where
  | done : α → Exec α
  | abort : Exec α
  | unfinished : Exec α
  deriving DecidableEq, Repr

def Exec.bind {α β : Type} (x : Exec α) (f : α → Exec β) : Exec β :=
  match x with
  | .done a => f a
  | .abort => .abort
  | .unfinished => .unfinished

instance : Monad Exec where
  pure := .done
  bind := Exec.bind

@[simp] theorem pure_eq {α : Type} (a : α) : (pure a : Exec α) = .done a := rfl

@[simp] theorem done_bind {α β : Type} (a : α) (f : α → Exec β) :
    (Exec.done a >>= f) = f a := rfl

@[simp] theorem abort_bind {α β : Type} (f : α → Exec β) :
    (Exec.abort >>= f) = .abort := rfl

@[simp] theorem unfinished_bind {α β : Type} (f : α → Exec β) :
    (Exec.unfinished >>= f) = .unfinished := rfl

@[simp] theorem bind_done {α : Type} (x : Exec α) : (x >>= fun a => .done a) = x := by
  cases x <;> rfl

theorem bind_bind {α β γ : Type} (x : Exec α) (f : α → Exec β) (g : β → Exec γ) :
    (x >>= f >>= g) = (x >>= fun a => f a >>= g) := by
  cases x <;> rfl

theorem bind_eq_done {α β : Type} {x : Exec α} {f : α → Exec β} {b : β} :
    (x >>= f) = .done b ↔ ∃ a, x = .done a ∧ f a = .done b := by
  cases x with
  | done a => simp
  | abort => simp
  | unfinished => simp

def Exec.map {α β : Type} (f : α → β) : Exec α → Exec β
  | .done a => .done (f a)
  | .abort => .abort
  | .unfinished => .unfinished

theorem map_eq_done {α β : Type} {f : α → β} {x : Exec α} {b : β} :
    x.map f = .done b ↔ ∃ a, x = .done a ∧ f a = b := by
  cases x <;> simp [Exec.map]

def Exec.result {α : Type} : Exec α → Option α
  | .done a => some a
  | .abort | .unfinished => none

def check (p : Bool) : Exec Unit := if p then .done () else .abort

@[simp] theorem check_true : check true = .done () := rfl

@[simp] theorem check_false : check false = .abort := rfl

section Loops

variable {σ : Type} (cond : σ → Bool) (body : σ → Exec σ)

def loop : Nat → σ → Exec σ
  | 0, s => if cond s then .unfinished else .done s
  | n+1, s => if cond s then body s >>= loop n else .done s

theorem loop_stop {s : σ} (h : cond s = false) (n : Nat) : loop cond body n s = .done s := by
  cases n <;> simp [loop,h]

theorem loop_next {s t : σ} (h : cond s = true) (hb : body s = .done t) (n : Nat) :
    loop cond body (n+1) s = loop cond body n t := by
  simp [loop,h,hb]

/-- A loop whose body is the total function `step` and whose test first fails
after `n` rounds. -/
theorem loop_iterate (step : σ → σ) {n fuel : Nat} {s : σ}
    (hrun : ∀ k < n, cond (step^[k] s) = true) (hstop : cond (step^[n] s) = false)
    (hfuel : n ≤ fuel) :
    loop cond (fun s => .done (step s)) fuel s = .done (step^[n] s) := by
  induction n generalizing s fuel with
  | zero => exact loop_stop cond _ hstop fuel
  | succ n ih =>
    obtain ⟨fuel,rfl⟩ : ∃ k, fuel = k+1 := ⟨fuel-1,by omega⟩
    have hn : loop cond (fun s => .done (step s)) (fuel+1) s =
        loop cond (fun s => .done (step s)) fuel (step s) :=
      loop_next cond (fun s => .done (step s)) (hrun 0 (by omega)) rfl fuel
    rw [hn]
    exact ih (fun k hk => hrun (k+1) (by omega)) hstop (by omega)

theorem loop_unfinished (step : σ → σ) {fuel : Nat} {s : σ}
    (hrun : ∀ k ≤ fuel, cond (step^[k] s) = true) :
    loop cond (fun s => .done (step s)) fuel s = .unfinished := by
  induction fuel generalizing s with
  | zero =>
    have hc : cond s = true := hrun 0 (Nat.le_refl 0)
    rw [loop,hc,if_pos rfl]
  | succ fuel ih =>
    have hn : loop cond (fun s => .done (step s)) (fuel+1) s =
        loop cond (fun s => .done (step s)) fuel (step s) :=
      loop_next cond (fun s => .done (step s)) (hrun 0 (Nat.zero_le _)) rfl fuel
    rw [hn]
    exact ih fun k hk => hrun (k+1) (Nat.succ_le_succ hk)

theorem loop_exact (step : σ → σ) {n : Nat} {s : σ}
    (hrun : ∀ k < n, cond (step^[k] s) = true) (hstop : cond (step^[n] s) = false)
    (fuel : Nat) :
    loop cond (fun s => .done (step s)) fuel s =
      if n ≤ fuel then .done (step^[n] s) else .unfinished := by
  split_ifs with hf
  · exact loop_iterate cond step hrun hstop hf
  · exact loop_unfinished cond step fun k hk => hrun k (by omega)

def rounds (step : σ → σ) (n : Nat) (s : σ) : σ := (fun s => if cond s then step s else s)^[n] s

theorem rounds_stop (step : σ → σ) {s : σ} (h : cond s = false) (n : Nat) :
    rounds cond step n s = s := by
  have hfix : (if cond s then step s else s) = s := by simp [h]
  exact Function.iterate_fixed (f := fun s => if cond s then step s else s) hfix n

theorem loop_rounds {step : σ → σ} {n : Nat} {s t : σ}
    (h : loop cond (fun s => .done (step s)) n s = .done t) : t = rounds cond step n s := by
  induction n generalizing s with
  | zero =>
    cases hc : cond s with
    | false =>
      simp only [loop,hc,Bool.false_eq_true,if_false] at h
      cases h
      rfl
    | true => simp [loop,hc] at h
  | succ n ih =>
    cases hc : cond s with
    | false =>
      rw [loop_stop cond _ hc] at h
      cases h
      exact (rounds_stop cond step hc _).symm
    | true =>
      rw [loop_next cond (fun s => .done (step s)) hc rfl] at h
      rw [ih h,rounds,rounds,Function.iterate_succ_apply,hc,if_pos rfl]

theorem loop_map {τ : Type} (f : σ → τ) {cond' : τ → Bool} {body' : τ → Exec τ}
    (hcond : ∀ s, cond' (f s) = cond s) (hbody : ∀ s, body' (f s) = (body s).map f)
    (n : Nat) (s : σ) : loop cond' body' n (f s) = (loop cond body n s).map f := by
  induction n generalizing s with
  | zero => cases hc : cond s <;> simp [loop,hcond,hc,Exec.map]
  | succ n ih =>
    cases hc : cond s with
    | false => simp [loop,hcond,hc,Exec.map]
    | true =>
      simp only [loop,hcond,hc,if_true,hbody]
      cases body s with
      | done t => exact ih t
      | abort => rfl
      | unfinished => rfl

end Loops

end Execution
