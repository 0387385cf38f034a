import ConcurrentWebServer.ConnectionOwnership
set_option autoImplicit false

/-! What the descriptors of the process stand for, besides those it was started
with: nothing but held connections and the source files of the workers. -/

namespace ConcurrentWebServer.Server
open Execution MesaMonitor Queueing Requests

section Borrowing

variable {W : Type} {fs : FileSystem} {inputs : Nat → Stream' Received} {boot : Boot}
  {s s' : Process W}

def Process.Reading (s : Process W) (srcfd : Nat) : Prop :=
  ∃ w job srcp, s.worker w = .mapped job srcfd srcp

structure Borrowed (boot : Boot) (s : Process W) : Prop where
  kept (fd : Nat) : boot.fds fd ≠ none → s.fds fd = boot.fds fd
  fresh (fd : Nat) : boot.fds fd = none →
    s.fds fd = none ∨ (∃ c, s.fds fd = some (.conn c)) ∨ s.Reading fd
  reading (fd : Nat) : s.Reading fd → boot.fds fd = none

theorem Borrowed.keep (h : Borrowed boot s) (hf : s'.fds = s.fds)
    (hr : ∀ fd, s'.Reading fd ↔ s.Reading fd) : Borrowed boot s' where
  kept fd := by rw [hf]; exact h.kept fd
  fresh fd := by rw [hf,hr]; exact h.fresh fd
  reading fd := by rw [hr]; exact h.reading fd

theorem Borrowed.bind (h : Borrowed boot s) {fd : Nat} {d : Option Descriptor}
    (hb : boot.fds fd = none) (hf : s'.fds = Function.update s.fds fd d)
    (hd : d = none ∨ (∃ c, d = some (.conn c)) ∨ s'.Reading fd)
    (hr : ∀ fd', fd' ≠ fd → (s'.Reading fd' ↔ s.Reading fd')) : Borrowed boot s' := by
  refine ⟨fun fd' hb' => ?_,fun fd' hb' => ?_,fun fd' hm => ?_⟩
  · have hne : fd' ≠ fd := by
      intro he
      rw [he] at hb'
      exact hb' hb
    rw [hf,Function.update_of_ne hne]
    exact h.kept fd' hb'
  · by_cases he : fd' = fd
    · subst he
      rw [hf,Function.update_self]
      exact hd
    · rw [hf,Function.update_of_ne he,hr fd' he]
      exact h.fresh fd' hb'
  · by_cases he : fd' = fd
    · rw [he]
      exact hb
    · exact h.reading fd' ((hr fd' he).mp hm)

theorem Borrowed.unused (h : Borrowed boot s) {fd : Nat}
    (hfd : s.fds fd = none ∨ ∃ c, s.fds fd = some (.conn c)) : boot.fds fd = none := by
  by_contra hb
  have hk := h.kept fd hb
  rcases hfd with hn | ⟨c,hc⟩
  · exact hb (hk ▸ hn)
  · exact boot.clear fd c (hk ▸ hc)

variable [DecidableEq W]

theorem reading_work {w : W} {p q : WorkerPc} {fd : Nat} (hp : s.worker w = p)
    (hw : s'.worker = Function.update s.worker w q) (hp' : ∀ job srcp, p ≠ .mapped job fd srcp)
    (hq : ∀ job srcp, q ≠ .mapped job fd srcp) : s'.Reading fd ↔ s.Reading fd := by
  constructor
  · intro h
    obtain ⟨u,job,srcp,hu⟩ := h
    refine ⟨u,job,srcp,?_⟩
    rw [hw] at hu
    by_cases he : u = w
    · subst he
      rw [Function.update_self] at hu
      exact absurd hu (hq job srcp)
    · rwa [Function.update_of_ne he] at hu
  · intro h
    obtain ⟨u,job,srcp,hu⟩ := h
    refine ⟨u,job,srcp,?_⟩
    have he : u ≠ w := by
      intro he
      rw [he,hp] at hu
      exact hp' job srcp hu
    rwa [hw,Function.update_of_ne he]

theorem borrowed_step (h : Borrowed boot s) (hl : Step fs inputs s s') :
    Borrowed boot s' := by
  cases hl with
  | accept fd _ hfd =>
    exact h.bind (h.unused (.inl hfd)) rfl (.inr (.inl ⟨_,rfl⟩)) (fun _ _ => Iff.rfl)
  | reject _ hi _ => exact h.bind (h.unused (.inr ⟨_,hi⟩)) rfl (.inl rfl) (fun _ _ => Iff.rfl)
  | @openFile w job srcfd content srcp hw _ hfd _ _ =>
    refine h.bind (h.unused (.inl hfd)) rfl (.inr (.inr ⟨w,job,srcp,Function.update_self _ _ _⟩))
      fun fd hne => reading_work hw rfl (by simp) ?_
    intro job' srcp' he
    cases he
    exact hne rfl
  | @closeFile w job srcfd srcp hw _ =>
    refine h.bind (h.reading srcfd ⟨w,job,srcp,hw⟩) rfl (.inl rfl)
      fun fd hne => reading_work hw rfl ?_ (by simp)
    intro job' srcp' he
    cases he
    exact hne rfl
  | fetch hw _ => exact h.keep rfl fun _ => reading_work hw rfl (by simp) (by simp)
  | fetched hw _ => exact h.keep rfl fun _ => reading_work hw rfl (by simp) (by simp)
  | header hw _ _ => exact h.keep rfl fun _ => reading_work hw rfl (by simp) (by simp)
  | body hw _ _ => exact h.keep rfl fun _ => reading_work hw rfl (by simp) (by simp)
  | status hw _ _ _ => exact h.keep rfl fun _ => reading_work hw rfl (by simp) (by simp)
  | fork hw _ => exact h.keep rfl fun _ => reading_work hw rfl (by simp) (by simp)
  | wait hw _ _ => exact h.keep rfl fun _ => reading_work hw rfl (by simp) (by simp)
  | close hw hi _ =>
    exact h.bind (h.unused (.inr ⟨_,hi⟩)) rfl (.inl rfl)
      fun _ _ => reading_work hw rfl (by simp) (by simp)
  | _ => exact h.keep rfl fun _ => Iff.rfl

theorem reaches_borrowed {b : Buffer Job} (h : Reaches fs inputs (Process.start W boot b) s) :
    Borrowed boot s := by
  induction h with
  | refl =>
    refine ⟨fun _ _ => rfl,fun fd hfd => .inl hfd,fun fd hr => ?_⟩
    obtain ⟨w,job,srcp,hw⟩ := hr
    cases hw
  | tail _ hl ih => exact borrowed_step ih hl

end Borrowing

section Counting

variable {W : Type} [Fintype W] {boot : Boot} {s : Process W}

theorem reading_card {F : Finset Nat} (hF : ∀ fd ∈ F, s.Reading fd) : F.card ≤ Fintype.card W := by
  let source : W → Nat := fun w =>
    match s.worker w with
    | .mapped _ srcfd _ => srcfd
    | _ => 0
  have hsub : F ⊆ Finset.univ.image source := by
    intro fd hfd
    obtain ⟨w,job,srcp,hw⟩ := hF fd hfd
    exact Finset.mem_image.mpr ⟨w,Finset.mem_univ w,by simp [source,hw]⟩
  calc F.card ≤ (Finset.univ.image source).card := Finset.card_le_card hsub
    _ ≤ Fintype.card W := Finset.card_image_le

theorem borrowed_card (ho : Owned s) (hcoupled : Coupled s) (h : Borrowed boot s) {F : Finset Nat}
    (hF : ∀ fd ∈ F, s.fds fd ≠ boot.fds fd) :
    F.card ≤ s.monitor.shared.count + 2*Fintype.card W + 1 := by
  classical
  have hcases : ∀ fd ∈ F, (∃ c, s.fds fd = some (.conn c)) ∨ s.Reading fd := by
    intro fd hfd
    have hne := hF fd hfd
    have hb : boot.fds fd = none := by
      by_contra hb
      exact hne (h.kept fd hb)
    rw [hb] at hne
    exact (h.fresh fd hb).resolve_left hne
  have hconns : (F.filter fun fd => ∃ c, s.fds fd = some (.conn c)).card ≤ s.holdings.card :=
    open_card ho fun fd hfd => (Finset.mem_filter.mp hfd).2
  have hfiles : (F.filter fun fd => ¬ ∃ c, s.fds fd = some (.conn c)).card ≤ Fintype.card W := by
    refine reading_card (s := s) fun fd hfd => ?_
    obtain ⟨hm,hn⟩ := Finset.mem_filter.mp hfd
    exact (hcases fd hm).resolve_left hn
  have hsum := Finset.card_filter_add_card_filter_not (s := F)
    (fun fd => ∃ c, s.fds fd = some (.conn c))
  have hheld := holdings_card hcoupled
  omega

variable [DecidableEq W] {fs : FileSystem} {inputs : Nat → Stream' Received} {capacity : Nat}
  {policy : SchedPolicy} {malloced : Int → Job} {b₀ : Buffer Job}

/-- The descriptors of the process, in every reachable state. -/
theorem descriptor_table (hc : FitsInt policy capacity)
    (hinit : bufferInit malloced capacity policy = .done b₀)
    (h : Reaches fs inputs (Process.start W boot b₀) s) :
    (∀ fd, boot.fds fd ≠ none → s.fds fd = boot.fds fd) ∧
    (∀ fd, boot.fds fd = none →
      s.fds fd = none ∨ (∃ c, s.fds fd = some (.conn c) ∧ ∃! o, ⟨o,fd,c⟩ ∈ s.holdings) ∨
        s.fds fd = some .file ∧ ∃! w, ∃ job srcp, s.worker w = .mapped job fd srcp) ∧
    ∀ F : Finset Nat, (∀ fd ∈ F, s.fds fd ≠ boot.fds fd) →
      F.card ≤ capacity + 2*Fintype.card W + 1 := by
  obtain ⟨ho,hf⟩ := reaches_owned hc hinit h
  obtain ⟨_,hcoupled⟩ := reaches_decided hc hinit h
  obtain ⟨hwf,hcap,_⟩ := reaches_refines hc hinit (reaches_monitor h)
  have hb := reaches_borrowed h
  refine ⟨hb.kept,fun fd hfd => ?_,fun F hF => ?_⟩
  · rcases hb.fresh fd hfd with hn | ⟨c,hc⟩ | ⟨w,job,srcp,hw⟩
    · exact .inl hn
    · exact .inr (.inl ⟨c,hc,owner_unique ho hc⟩)
    · refine .inr (.inr ⟨hf.opened hw,w,⟨job,srcp,hw⟩,fun u hu => ?_⟩)
      obtain ⟨job',srcp',hu⟩ := hu
      exact hf.apart hu hw
  · have hcard := borrowed_card ho hcoupled hb hF
    have hcount := hwf.count_le
    omega

theorem descriptor_table_busy : ∃ s : Process (Fin 2),
    s.fds 1 = some .file ∧ (s.fds 4 = some (.conn 0) ∧ ∃! o, ⟨o,4,0⟩ ∈ s.holdings) ∧
    (s.fds 5 = some .file ∧ ∃! w, ∃ job srcp, s.worker w = .mapped job 5 srcp) ∧
    (s.fds 6 = some (.conn 1) ∧ ∃! o, ⟨o,6,1⟩ ∈ s.holdings) ∧
    ∀ F : Finset Nat, (∀ fd ∈ F, s.fds fd ≠ if fd = 1 then some .file else none) →
      F.card ≤ 2+2*2+1 := by
  obtain ⟨s,hrun,hs⟩ := busy_reached (fun _ => pageJob 0 0)
    ⟨fun fd => if fd = 1 then some .file else none,by intro fd c; split <;> simp⟩
    fun fd hfd => if_neg (by omega)
  obtain ⟨hkept,hfresh,hbound⟩ :=
    descriptor_table (fitsInt_of_le .fifo 2 (by decide) (by decide)) rfl hrun
  have h4 : ∃! o, ⟨o,4,0⟩ ∈ s.holdings := by simpa [hs.fds] using hfresh 4 rfl
  have h5 : ∃! w, ∃ job srcp, s.worker w = .mapped job 5 srcp := by
    simpa [hs.fds] using hfresh 5 rfl
  have h6 : ∃! o, ⟨o,6,1⟩ ∈ s.holdings := by simpa [hs.fds] using hfresh 6 rfl
  exact ⟨s,hkept 1 (by simp),⟨by rw [hs.fds]; rfl,h4⟩,⟨by rw [hs.fds]; rfl,h5⟩,
    ⟨by rw [hs.fds]; rfl,h6⟩,hbound⟩

end Counting

end ConcurrentWebServer.Server
