import ConcurrentWebServer.BufferRefinement
import ConcurrentWebServer.MesaMonitor
set_option autoImplicit false

/-! `buffer_put` and `buffer_get` as monitor operations, and what a sequence of
completed operations does to the list of pending requests. -/

namespace ConcurrentWebServer.Queueing
open Execution LeastFirst MesaMonitor

inductive Op (α : Type) where
  | put : α → Op α
  | get : Op α

inductive Done (α : Type) where
  | put : α → Done α
  | got : α → Done α
  deriving DecidableEq, Repr

inductive Cond where
  | notEmpty : Cond
  | notFull : Cond
  deriving DecidableEq, Repr

section Operations

variable {α : Type} (filesize : α → Int)

def bufferMonitor : Ops (Buffer α) (Op α) (Done α) Cond where
  blocked
    | .put _, b => b.full
    | .get, b => b.empty
  cond
    | .put _ => .notFull
    | .get => .notEmpty
  signals
    | .put _ => .notEmpty
    | .get => .notFull
  body
    | .put req, b => some (.put req,bufferPut b req)
    | .get, b => (bufferGet filesize b).result.map fun p => (.got p.1,p.2)

theorem body_cases {b b' : Buffer α} {op : Op α} {r : Done α} (h : b.Sound)
    (hb : (bufferMonitor filesize).blocked op b = false)
    (hr : (bufferMonitor filesize).body op b = some (r,b')) :
    b'.Sound ∧ b'.cap = b.cap ∧ b'.sched = b.sched ∧
      ((∃ req, op = .put req ∧ r = .put req ∧ b'.contents = b.contents ++ [req]) ∨
        ∃ x, op = .get ∧ r = .got x ∧ Takes filesize b.sched b.contents x b'.contents) := by
  cases op with
  | put req =>
    have hle := h.count_le
    have hc : b.count < b.cap := by
      have hne : b.count ≠ b.cap := by simpa [bufferMonitor,Buffer.full] using hb
      omega
    simp only [bufferMonitor,Option.some.injEq,Prod.mk.injEq] at hr
    obtain ⟨rfl,rfl⟩ := hr
    exact ⟨sound_put h hc req,rfl,rfl,.inl ⟨req,rfl,rfl,contents_put h.toWellFormed hc req⟩⟩
  | get =>
    have hc : 0 < b.count := by
      have hne : b.count ≠ 0 := by simpa [bufferMonitor,Buffer.empty] using hb
      omega
    obtain ⟨x,c,hget,hwf,hcap,hsched,htakes⟩ := bufferGet_takes filesize h hc
    simp only [bufferMonitor,hget,Exec.result,Option.map_some,Option.some.injEq,
      Prod.mk.injEq] at hr
    obtain ⟨rfl,rfl⟩ := hr
    exact ⟨hwf,hcap,hsched,.inr ⟨x,rfl,rfl,htakes⟩⟩

variable {filesize} in
theorem execs_put {b c : Buffer α} {es : List (Done α)}
    (h : Execs (bufferMonitor filesize) b es c) (hc : c.full = false) (req : α) :
    Execs (bufferMonitor filesize) b (es ++ [.put req]) (bufferPut c req) := by
  have hb : (bufferMonitor filesize).blocked (.put req) c = false := hc
  exact h.snoc hb rfl

variable {filesize} in
theorem execs_get {b c d : Buffer α} {es : List (Done α)} {x : α}
    (h : Execs (bufferMonitor filesize) b es c) (hc : c.empty = false)
    (hg : bufferGet filesize c = .done (x,d)) :
    Execs (bufferMonitor filesize) b (es ++ [.got x]) d := by
  have hb : (bufferMonitor filesize).blocked .get c = false := hc
  exact h.snoc hb (by simp [bufferMonitor,hg,Exec.result])

inductive Served (p : SchedPolicy) : List α → List (Done α) → List α → Prop where
  | nil {l : List α} : Served p l [] l
  | put {l n : List α} {es : List (Done α)} {req : α} :
      Served p (l ++ [req]) es n → Served p l (.put req :: es) n
  | got {l m n : List α} {es : List (Done α)} {x : α} :
      Takes filesize p l x m → Served p m es n → Served p l (.got x :: es) n

variable {filesize} in
theorem Served.append {p : SchedPolicy} {l m n : List α} {es fs : List (Done α)}
    (h : Served filesize p l es m) (k : Served filesize p m fs n) :
    Served filesize p l (es ++ fs) n := by
  induction h with
  | nil => exact k
  | put _ ih => exact .put (ih k)
  | got ht _ ih => exact .got ht (ih k)

structure Refines (b : Buffer α) (es : List (Done α)) (b' : Buffer α) : Prop where
  sound : b'.Sound
  cap : b'.cap = b.cap
  sched : b'.sched = b.sched
  served : Served filesize b.sched b.contents es b'.contents

theorem execs_refines {b b' : Buffer α} {es : List (Done α)} (h : b.Sound)
    (he : Execs (bufferMonitor filesize) b es b') : Refines filesize b es b' := by
  induction he with
  | nil => exact ⟨h,rfl,rfl,.nil⟩
  | snoc _ hb hr ih =>
    obtain ⟨hwf,hcap,hsched,hcases⟩ := body_cases filesize ih.sound hb hr
    refine ⟨hwf,hcap.trans ih.cap,hsched.trans ih.sched,?_⟩
    obtain ⟨req,_,rfl,hput⟩ | ⟨x,_,rfl,htakes⟩ := hcases
    · rw [hput]
      exact ih.served.append (.put .nil)
    · rw [ih.sched] at htakes
      exact ih.served.append (.got htakes .nil)

def Run (filesize : α → Int) (capacity : Nat) (policy : SchedPolicy) (es : List (Done α))
    (b : Buffer α) : Prop :=
  ∃ malloced b₀, bufferInit malloced capacity policy = .done b₀ ∧
    Execs (bufferMonitor filesize) b₀ es b

variable {filesize} in
theorem Run.served {capacity : Nat} {policy : SchedPolicy} {es : List (Done α)} {b : Buffer α}
    (hc : FitsInt policy capacity) (h : Run filesize capacity policy es b) :
    b.Sound ∧ b.cap = capacity ∧ b.sched = policy ∧
      Served filesize policy [] es b.contents := by
  obtain ⟨malloced,b₀,hinit,he⟩ := h
  rw [bufferInit_done malloced hc.pos policy] at hinit
  cases hinit
  have hr := execs_refines filesize (sound_init malloced hc) he
  exact ⟨hr.sound,hr.cap,hr.sched,hr.served⟩

def Done.stored : Done α → Option α
  | .put req => some req
  | .got _ => none

def Done.returned : Done α → Option α
  | .put _ => none
  | .got req => some req

def putsOf (es : List (Done α)) : List α := es.filterMap Done.stored

def getsOf (es : List (Done α)) : List α := es.filterMap Done.returned

@[simp] theorem putsOf_append (es fs : List (Done α)) :
    putsOf (es ++ fs) = putsOf es ++ putsOf fs := List.filterMap_append

@[simp] theorem getsOf_append (es fs : List (Done α)) :
    getsOf (es ++ fs) = getsOf es ++ getsOf fs := List.filterMap_append

@[simp] theorem putsOf_nil : putsOf ([] : List (Done α)) = [] := rfl
@[simp] theorem getsOf_nil : getsOf ([] : List (Done α)) = [] := rfl

@[simp] theorem putsOf_put (req : α) (es : List (Done α)) :
    putsOf (.put req :: es) = req :: putsOf es := rfl

@[simp] theorem putsOf_got (req : α) (es : List (Done α)) :
    putsOf (.got req :: es) = putsOf es := rfl

@[simp] theorem getsOf_put (req : α) (es : List (Done α)) :
    getsOf (.put req :: es) = getsOf es := rfl

@[simp] theorem getsOf_got (req : α) (es : List (Done α)) :
    getsOf (.got req :: es) = req :: getsOf es := rfl

theorem mem_putsOf {es : List (Done α)} {x : α} : x ∈ putsOf es ↔ .put x ∈ es := by
  simp only [putsOf,List.mem_filterMap]
  constructor
  · rintro ⟨e,he,hx⟩
    cases e with
    | put req => exact Option.some.inj hx ▸ he
    | got req => cases hx
  · exact fun h => ⟨_,h,rfl⟩

theorem mem_getsOf {es : List (Done α)} {x : α} : x ∈ getsOf es ↔ .got x ∈ es := by
  simp only [getsOf,List.mem_filterMap]
  constructor
  · rintro ⟨e,he,hx⟩
    cases e with
    | put req => cases hx
    | got req => exact Option.some.inj hx ▸ he
  · exact fun h => ⟨_,h,rfl⟩

variable {filesize}

theorem Served.conserves {p : SchedPolicy} {l n : List α} {es : List (Done α)}
    (h : Served filesize p l es n) : (l ++ putsOf es).Perm (getsOf es ++ n) := by
  induction h with
  | nil => simp
  | put _ ih => simpa using ih
  | got ht _ ih =>
    simp only [putsOf_got,getsOf_got]
    exact ((ht.perm filesize).append_right _).trans (ih.cons _)

theorem Served.fifo {l n : List α} {es : List (Done α)}
    (h : Served filesize .fifo l es n) : l ++ putsOf es = getsOf es ++ n := by
  induction h with
  | nil => simp
  | put _ ih => simpa using ih
  | got ht _ ih =>
    cases ht
    simpa using ih

end Operations

section Renaming

/-! The buffer looks at nothing of a request but its `filesize`. -/

variable {α β : Type} (f : α → β)

def Buffer.map (b : Buffer α) : Buffer β :=
  ⟨fun i => f (b.slots i),b.cap,b.count,b.head,b.tail,b.sched⟩

def Done.map : Done α → Done β
  | .put req => .put (f req)
  | .got req => .got (f req)

def Shift.map (s : Shift α) : Shift β := ⟨fun i => f (s.slots i),s.cur,s.next⟩

theorem update_map (slots : Int → α) (i : Int) (x : α) :
    Function.update (fun i => f (slots i)) i (f x) = fun j => f (Function.update slots i x j) := by
  funext j
  by_cases h : j = i
  · subst h
    simp
  · simp [h]

theorem bufferPut_map (b : Buffer α) (req : α) :
    bufferPut (b.map f) (f req) = (bufferPut b req).map f := by
  simp only [bufferPut,Buffer.map,update_map]

theorem Shift.step_map (cap : Nat) (s : Shift α) : (s.map f).step cap = (s.step cap).map f := by
  simp only [Shift.step,Shift.map,update_map]

theorem compact_map (filesize : β → Int) (b : Buffer α) :
    (b.map f).compact filesize = (b.compact fun x => filesize (f x)).map (Shift.map f) :=
  loop_map _ _ (Shift.map f) (fun _ => rfl)
    (fun s => congrArg Exec.done (Shift.step_map f b.cap s)) (2*b.cap)
    (b.shiftStart fun x => filesize (f x))

theorem bufferGet_map (filesize : β → Int) (b : Buffer α) :
    bufferGet filesize (b.map f) =
      (bufferGet (fun x => filesize (f x)) b).map fun p => (f p.1,p.2.map f) := by
  cases hs : b.sched with
  | fifo =>
    have hs' : (b.map f).sched = .fifo := hs
    simp only [bufferGet,hs,hs',pure_eq]
    rfl
  | sff =>
    have hs' : (b.map f).sched = .sff := hs
    simp only [bufferGet,hs,hs',compact_map]
    cases b.compact fun x => filesize (f x) with
    | done s => rfl
    | abort => rfl
    | unfinished => rfl

end Renaming

end ConcurrentWebServer.Queueing
