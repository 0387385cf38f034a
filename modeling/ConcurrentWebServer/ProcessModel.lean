import ConcurrentWebServer.ForkWait
import ConcurrentWebServer.ServerModel
set_option autoImplicit false

/-!
The server and its CGI children as the system sees them: the descriptors each
process holds, and which of them have exited. The order in which requests are
dequeued, what is sent, and when a program exits are left open.
-/

namespace ConcurrentWebServer.Forking
open ForkWait
open Server (Boot Descriptor Descriptors STDOUT_FILENO dup2)

structure Ticket where
  connFd : Nat
  isStatic : Bool
  deriving DecidableEq

/-- Where a worker is in `request_serve`. The numbers are the `srcfd` of a file,
and that of the child that was forked for the request. -/
inductive Place where
  | idle : Place
  | serving : Ticket → Place
  | mapping : Ticket → Nat → Place
  | replying : Ticket → Place
  | forking : Ticket → Place
  | waiting : Ticket → Nat → Place
  | closing : Ticket → Option Nat → Place
  deriving DecidableEq

/-- What a child has from its parent. `born` is a ghost: how many connections
had been accepted when it was forked. -/
structure Inherited where
  fds : Descriptors
  connFd : Nat
  born : Nat

/-- `parsing` is the `conn_fd` that `main` is at. `closed` is a ghost: the
connections that `request_serve` has closed, and the child that was forked for
each. -/
structure Processes (W : Type) where
  fds : Descriptors
  accepted : Nat
  parsing : Option Nat
  pending : Multiset Ticket
  place : W → Place
  children : List (Child Inherited)
  forks : Nat
  closed : List (Nat × Option Nat)

def Processes.start (W : Type) (boot : Boot) : Processes W where
  fds := boot.fds
  accepted := 0
  parsing := none
  pending := 0
  place := fun _ => .idle
  children := []
  forks := 0
  closed := []

inductive Act (W : Type) where
  | wait : W → Act W
  | close : W → Act W
  | other : Act W

section Steps

variable {W : Type} [DecidableEq W]

def Processes.move (s : Processes W) (w : W) (p : Place) : Processes W :=
  { s with place := Function.update s.place w p }

def Processes.bind (s : Processes W) (fd : Nat) (d : Option Descriptor) : Processes W :=
  { s with fds := Function.update s.fds fd d }

inductive Step : Processes W → Act W → Processes W → Prop where
  | accept {s : Processes W} (fd : Nat) :
      s.parsing = none → s.fds fd = none →
      Step s .other
        { s.bind fd (some (.conn s.accepted)) with accepted := s.accepted+1, parsing := some fd }
  | reject {s : Processes W} {fd i : Nat} :
      s.parsing = some fd → s.fds fd = some (.conn i) →
      Step s .other { s.bind fd none with parsing := none }
  | put {s : Processes W} {fd : Nat} (isStatic : Bool) :
      s.parsing = some fd →
      Step s .other { s with parsing := none, pending := ⟨fd,isStatic⟩ ::ₘ s.pending }
  | get {s : Processes W} {w : W} {t : Ticket} (rest : Multiset Ticket) :
      s.place w = .idle → s.pending = t ::ₘ rest →
      Step s .other { s.move w (.serving t) with pending := rest }
  | openFile {s : Processes W} {w : W} {t : Ticket} (srcfd : Nat) :
      s.place w = .serving t → t.isStatic = true → s.fds srcfd = none →
      Step s .other ((s.bind srcfd (some .file)).move w (.mapping t srcfd))
  | closeFile {s : Processes W} {w : W} {t : Ticket} {srcfd : Nat} :
      s.place w = .mapping t srcfd →
      Step s .other ((s.bind srcfd none).move w (.replying t))
  | reply {s : Processes W} {w : W} {t : Ticket} :
      s.place w = .replying t → Step s .other (s.move w (.closing t none))
  | status {s : Processes W} {w : W} {t : Ticket} :
      s.place w = .serving t → t.isStatic = false → Step s .other (s.move w (.forking t))
  /-- The child gets a copy of the whole table. -/
  | fork {s : Processes W} {w : W} {t : Ticket} :
      s.place w = .forking t →
      Step s .other
        { s.move w (.waiting t s.forks) with
          children := s.children ++ [⟨s.forks,⟨s.fds,t.connFd,s.accepted⟩,false⟩]
          forks := s.forks+1 }
  | redirect {s : Processes W} (left right : List (Child Inherited)) {child : Child Inherited} :
      s.children = left ++ child :: right → child.exited = false →
      child.data.fds child.data.connFd ≠ none →
      Step s .other
        { s with
          children := left ++ ⟨child.pid,{ child.data with
            fds := dup2 child.data.fds child.data.connFd STDOUT_FILENO },false⟩ :: right }
  /-- A program may close what it has inherited. -/
  | release {s : Processes W} (left right : List (Child Inherited)) {child : Child Inherited}
      (fd : Nat) :
      s.children = left ++ child :: right → child.exited = false →
      Step s .other
        { s with
          children := left ++ ⟨child.pid,{ child.data with
            fds := Function.update child.data.fds fd none },false⟩ :: right }
  /-- At any time, also before its `execve`, or because that failed. -/
  | exit {s : Processes W} (left right : List (Child Inherited)) {child : Child Inherited} :
      s.children = left ++ child :: right → child.exited = false →
      Step s .other
        { s with
          children := left ++ ⟨child.pid,{ child.data with fds := fun _ => none },true⟩ :: right }
  | wait {s : Processes W} {w : W} {t : Ticket} {own : Nat} {rest : List (Child Inherited)} :
      s.place w = .waiting t own → Wait s.children (some rest) →
      Step s (.wait w) { s.move w (.closing t (some own)) with children := rest }
  | close {s : Processes W} {w : W} {t : Ticket} {own : Option Nat} {i : Nat} :
      s.place w = .closing t own → s.fds t.connFd = some (.conn i) →
      Step s (.close w)
        { (s.bind t.connFd none).move w .idle with closed := (i,own) :: s.closed }

def Runs (g : Processes W → Act W → Prop) : Processes W → Processes W → Prop :=
  Relation.ReflTransGen fun s s' => ∃ a, Step s a s' ∧ g s a

def Reaches (boot : Boot) (s : Processes W) : Prop :=
  Runs (fun _ _ => True) (Processes.start W boot) s

theorem Runs.reaches {g : Processes W → Act W → Prop} {boot : Boot} {s : Processes W}
    (h : Runs g (Processes.start W boot) s) : Reaches boot s := by
  induction h with
  | refl => exact .refl
  | tail _ hl ih =>
    obtain ⟨a,ha,_⟩ := hl
    exact ih.tail ⟨a,ha,trivial⟩

end Steps

section Families

/-! The workers and the children are threads that fork and wait. -/

def Place.awaited : Place → Option Nat
  | .waiting _ own => some own
  | _ => none

def Processes.family {W : Type} (s : Processes W) : Family W Inherited :=
  ⟨s.children,s.forks,Place.awaited ∘ s.place⟩

variable {W : Type} [DecidableEq W] {s s' : Processes W} {a : Act W}

theorem awaited_move {f : W → Place} {w : W} {p : Place} (hw : (f w).awaited = none)
    (hp : p.awaited = none) : Place.awaited ∘ Function.update f w p = Place.awaited ∘ f := by
  rw [Function.comp_update,hp,← hw]
  exact Function.update_eq_self _ _

theorem step_family (hl : Step s a s') :
    s'.family = s.family ∨ ForkWait.Step s.family s'.family := by
  have hkeep : ∀ {w : W} {p : Place}, (s.place w).awaited = none → p.awaited = none →
      (⟨s.children,s.forks,Place.awaited ∘ Function.update s.place w p⟩ : Family W Inherited) =
        s.family := by
    intro w p hw hp
    rw [awaited_move hw hp]
    rfl
  cases hl with
  | accept _ _ _ => exact .inl rfl
  | reject _ _ => exact .inl rfl
  | put _ _ => exact .inl rfl
  | get _ hw _ => exact .inl (hkeep (by rw [hw]; rfl) rfl)
  | openFile _ hw _ _ => exact .inl (hkeep (by rw [hw]; rfl) rfl)
  | closeFile hw => exact .inl (hkeep (by rw [hw]; rfl) rfl)
  | reply hw => exact .inl (hkeep (by rw [hw]; rfl) rfl)
  | status hw _ => exact .inl (hkeep (by rw [hw]; rfl) rfl)
  | @fork w t hw =>
    have hnone : s.family.awaited w = none := congrArg Place.awaited hw
    have hstep := ForkWait.Step.fork (⟨s.fds,t.connFd,s.accepted⟩ : Inherited) hnone
    refine .inr ?_
    simpa only [Processes.family,Processes.move,Function.comp_update,Place.awaited] using hstep
  | redirect _ _ hc hrun _ => exact .inr (.alter _ _ hc hrun)
  | release _ _ _ hc hrun => exact .inr (.alter _ _ hc hrun)
  | exit _ _ hc hrun => exact .inr (.alter _ _ hc hrun)
  | @wait w t own rest hw hreap =>
    have hsome : s.family.awaited w = some own := congrArg Place.awaited hw
    have hstep := ForkWait.Step.wait hsome hreap
    refine .inr ?_
    simpa only [Processes.family,Processes.move,Function.comp_update,Place.awaited] using hstep
  | close hw _ => exact .inl (hkeep (by rw [hw]; rfl) rfl)

theorem reaches_family {P : Family W Inherited → Prop} {boot : Boot}
    (hstart : P (Processes.start W boot).family)
    (hstep : ∀ f f', P f → ForkWait.Step f f' → P f') (h : Reaches boot s) : P s.family := by
  induction h with
  | refl => exact hstart
  | tail _ hl ih =>
    obtain ⟨a,ha,_⟩ := hl
    rcases step_family ha with he | hf
    · rw [he]
      exact ih
    · exact hstep _ _ ih hf

end Families

end ConcurrentWebServer.Forking
