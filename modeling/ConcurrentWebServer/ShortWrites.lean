import ConcurrentWebServer.ServedFiles
set_option autoImplicit false

/-! Replies on a connection whose writes may take less than they are given. -/

namespace ConcurrentWebServer
open Execution CStrings

section Writes

def Accepted.taken (a : Accepted) (p : List UInt8) : List UInt8 :=
  match a with
  | .all => p
  | .atMost k => p.take k
  | .error => []

def Progressing (writes : Stream' Accepted) : Prop :=
  ∀ i, writes.get i = .all ∨ ∃ k, 0 < k ∧ writes.get i = .atMost k

def delivered : Stream' Accepted → List (List UInt8) → List UInt8
  | _, [] => []
  | writes, p :: ps => writes.head.taken p ++ delivered writes.tail ps

def Accepted.TakesAll (a : Accepted) (p : List UInt8) : Prop :=
  match a with
  | .all => True
  | .atMost k => p.length ≤ k
  | .error => False

def NoneShort : Stream' Accepted → List (List UInt8) → Prop
  | _, [] => True
  | writes, p :: ps => writes.head.TakesAll p ∧ NoneShort writes.tail ps

theorem Progressing.tail {writes : Stream' Accepted} (h : Progressing writes) :
    Progressing writes.tail := fun i => h (i+1)

theorem Progressing.ne_error {writes : Stream' Accepted} (h : Progressing writes) (i : Nat) :
    writes.get i ≠ .error := by
  intro he
  have hi := h i
  rw [he] at hi
  obtain hall | ⟨k,_,hk⟩ := hi
  · cases hall
  · cases hk

theorem writeOrDie_taken {conn : Conn} (h : conn.outcomes.head ≠ .error) (p : List UInt8) :
    writeOrDie conn p = .done { conn with
      outcomes := conn.outcomes.tail, sent := conn.sent ++ conn.outcomes.head.taken p } := by
  cases hh : conn.outcomes.head with
  | all => simp [writeOrDie,hh,Accepted.taken]
  | atMost k => simp [writeOrDie,hh,Accepted.taken]
  | error => exact absurd hh h

theorem writeAll_delivered {conn : Conn} {ps : List (List UInt8)}
    (h : ∀ i < ps.length, conn.outcomes.get i ≠ .error) :
    writeAll conn ps = .done { conn with
      outcomes := conn.outcomes.drop ps.length
      sent := conn.sent ++ delivered conn.outcomes ps } := by
  induction ps generalizing conn with
  | nil => simp [writeAll,delivered]
  | cons p ps ih =>
    have hfirst : conn.outcomes.head ≠ .error := h 0 (by simp)
    have hrest : ∀ i < ps.length, conn.outcomes.tail.get i ≠ .error :=
      fun i hi => h (i+1) (by simpa using hi)
    simp only [writeAll,writeOrDie_taken hfirst,done_bind]
    rw [ih hrest]
    simp [delivered]

theorem taken_length_le (a : Accepted) (p : List UInt8) : (a.taken p).length ≤ p.length := by
  cases a with
  | all => exact Nat.le_refl _
  | atMost k => exact List.length_take_le' k p
  | error => exact Nat.zero_le _

theorem taken_eq_iff {a : Accepted} {p : List UInt8} (ha : a ≠ .error) :
    a.taken p = p ↔ a.TakesAll p := by
  cases a with
  | all => simp [Accepted.taken,Accepted.TakesAll]
  | atMost k => simp [Accepted.taken,Accepted.TakesAll]
  | error => exact absurd rfl ha

theorem delivered_length_le (writes : Stream' Accepted) (ps : List (List UInt8)) :
    (delivered writes ps).length ≤ ps.flatten.length := by
  induction ps generalizing writes with
  | nil => simp [delivered]
  | cons p ps ih =>
    have hp := taken_length_le writes.head p
    have hps := ih writes.tail
    simp only [delivered,List.flatten_cons,List.length_append]
    omega

theorem NoneShort.ne_error {writes : Stream' Accepted} {ps : List (List UInt8)}
    (h : NoneShort writes ps) : ∀ i < ps.length, writes.get i ≠ .error := by
  induction ps generalizing writes with
  | nil => simp
  | cons p ps ih =>
    intro i hi
    cases i with
    | zero =>
      intro he
      have hfirst : writes.head.TakesAll p := h.1
      have hhead : writes.head = .error := he
      rw [hhead] at hfirst
      exact hfirst
    | succ i => exact ih h.2 i (by simpa using hi)

theorem NoneShort.delivered {writes : Stream' Accepted} {ps : List (List UInt8)}
    (h : NoneShort writes ps) : delivered writes ps = ps.flatten := by
  induction ps generalizing writes with
  | nil => rfl
  | cons p ps ih =>
    have hfirst : writes.head ≠ .error := h.ne_error 0 (by simp)
    rw [ConcurrentWebServer.delivered,(taken_eq_iff hfirst).mpr h.1,ih h.2,List.flatten_cons]

theorem delivered_eq_iff {writes : Stream' Accepted} (h : Progressing writes)
    (ps : List (List UInt8)) : delivered writes ps = ps.flatten ↔ NoneShort writes ps := by
  constructor
  · intro heq
    induction ps generalizing writes with
    | nil => trivial
    | cons p ps ih =>
      rw [delivered,List.flatten_cons] at heq
      have hlen := congrArg List.length heq
      have hp := taken_length_le writes.head p
      have hps := delivered_length_le writes.tail ps
      simp only [List.length_append] at hlen
      obtain ⟨hfirst,hrest⟩ := List.append_inj heq (by omega)
      exact ⟨(taken_eq_iff (h.ne_error 0)).mp hfirst,ih h.tail hrest⟩
  · exact NoneShort.delivered

theorem writeAll_noneShort {conn : Conn} {ps : List (List UInt8)}
    (h : NoneShort conn.outcomes ps) :
    writeAll conn ps = .done { conn with
      outcomes := conn.outcomes.drop ps.length, sent := conn.sent ++ ps.flatten } := by
  rw [writeAll_delivered h.ne_error,h.delivered]

end Writes

end ConcurrentWebServer

namespace ConcurrentWebServer.Requests
open Execution CStrings

section Replies

/-- When `request_serve_static` returns for a file of this content, the client
has the header and as many bytes of the file as it announces. -/
def FileDelivered (fs : FileSystem) (filename content : List UInt8) (conn : Conn) : Prop :=
  let size := (content.length : Int).bmod (2^32)
  ∀ conn', requestServeStatic fs filename size conn = .done conn' → conn'.sent = conn.sent ++
    (staticHeader size (requestGetFiletype filename) ++ content.take size.toNat)

def PageDelivered (p : ErrorPage) (conn : Conn) : Prop :=
  ∀ conn', requestError conn p.cause p.errnum p.shortmsg p.longmsg = .done conn' →
    conn'.sent = conn.sent ++ p.bytes

variable {conn : Conn}

theorem writeAll_sent_iff (h : Progressing conn.outcomes) (ps : List (List UInt8)) :
    (∀ conn', writeAll conn ps = .done conn' → conn'.sent = conn.sent ++ ps.flatten) ↔
      NoneShort conn.outcomes ps := by
  rw [writeAll_delivered fun i _ => h.ne_error i,← delivered_eq_iff h]
  constructor
  · intro hs
    exact List.append_cancel_left (hs _ rfl)
  · intro heq conn' hd
    cases hd
    rw [heq]

theorem fileDelivered_iff (h : Progressing conn.outcomes) {fs : FileSystem}
    {filename content : List UInt8} (hf : fs.contents filename = some content)
    (hne : content ≠ []) :
    let size := (content.length : Int).bmod (2^32)
    FileDelivered fs filename content conn ↔ size ≤ 0 ∨ NoneShort conn.outcomes
      [staticHeader size (requestGetFiletype filename),content.take size.toNat] := by
  intro size
  by_cases hsize : 0 < size
  · have hpos : ¬ size ≤ 0 := by omega
    have hmap : mapped content size.toNat = content.take size.toNat := by
      rw [mapped,List.take_append_of_le_length (bmod_le _ hsize)]
    have hend : (conn.outcomes.get 1).reach size.toNat ≤ pageEnd content.length :=
      (Accepted.reach_le _ _).trans ((bmod_le _ hsize).trans (Nat.le_add_right _ _))
    have hwrites := requestServeStatic_done hf hne hsize hend
    rw [hmap] at hwrites
    have hiff := writeAll_sent_iff h
      [staticHeader size (requestGetFiletype filename),content.take size.toNat]
    simp only [List.flatten_cons,List.flatten_nil,List.append_nil] at hiff
    simp only [hpos,false_or]
    rw [← hiff,← hwrites]
    rfl
  · have hle : size ≤ 0 := by omega
    refine iff_of_true (fun conn' hd => ?_) (.inl hle)
    exact absurd (requestServeStatic_needs hd).1 hsize

theorem pageDelivered_iff (h : Progressing conn.outcomes) (p : ErrorPage) :
    PageDelivered p conn ↔ NoneShort conn.outcomes p.chunks := by
  rw [← writeAll_sent_iff h,PageDelivered,requestError_eq]
  rfl

/-- A reply arrives as a whole if none of its writes is short. -/
theorem delivered_whole (conn : Conn) (h : Progressing conn.outcomes) :
    (∀ fs filename content, fs.contents filename = some content → content ≠ [] →
      let size := (content.length : Int).bmod (2^32)
      (FileDelivered fs filename content conn ↔ size ≤ 0 ∨ NoneShort conn.outcomes
        [staticHeader size (requestGetFiletype filename),content.take size.toNat])) ∧
    ∀ p, PageDelivered p conn ↔ NoneShort conn.outcomes p.chunks :=
  ⟨fun _ _ _ hf hne => fileDelivered_iff h hf hne,fun p => pageDelivered_iff h p⟩

theorem delivered_whole_hi :
    FileDelivered (seenBy visitor (fun _ _ => none) (fileOf [104,105])) (ascii "./a") [104,105]
      (Conn.fresh (Stream'.const .eof) (Stream'.const (.atMost 200))) :=
  ((delivered_whole (Conn.fresh (Stream'.const .eof) (Stream'.const (.atMost 200)))
    (fun _ => .inr ⟨200,by decide,rfl⟩)).1 _ _ _ rfl (by simp)).mpr
    (.inr ⟨(by decide : _ ≤ 200),(by decide : _ ≤ 200),trivial⟩)

/-- The first write takes one byte, and the second one both of its two. -/
theorem header_cut_short : ∃ conn',
    requestServeStatic (seenBy visitor (fun _ _ => none) (fileOf [104,105])) (ascii "./a") 2
      (Conn.fresh (Stream'.const .eof) (Stream'.cons (.atMost 1) (Stream'.const .all))) =
        .done conn' ∧ conn'.sent = ascii "Hhi" ∧
    ¬ FileDelivered (seenBy visitor (fun _ _ => none) (fileOf [104,105])) (ascii "./a") [104,105]
      (Conn.fresh (Stream'.const .eof) (Stream'.cons (.atMost 1) (Stream'.const .all))) := by
  refine ⟨_,rfl,rfl,fun h => ?_⟩
  have hsent := h _ rfl
  revert hsent
  decide

end Replies

end ConcurrentWebServer.Requests
