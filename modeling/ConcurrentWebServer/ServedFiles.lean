import ConcurrentWebServer.ConnectionFailure
import ConcurrentWebServer.PosixFiles
set_option autoImplicit false

/-! Static files between the `stat` of `request_parse` and the `open` of
`request_serve_static`. -/

namespace ConcurrentWebServer.Requests
open Execution CStrings PosixFiles

/-- What a server that runs as `who` sees of a tree. Only a regular file can be
opened and mapped; `run` stands for what the programs write. -/
def seenBy (who : Identity) (run : List UInt8 → List UInt8 → Option (List UInt8)) (t : Tree) :
    FileSystem where
  stat p := (t.lookup p).map fun node => ⟨node.mode,node.content.length⟩
  contents p := (t.lookup p).bind fun node =>
    if S_ISREG node.mode && node.mayRead who then some node.content else none
  execve := run

section Accepted

variable {who : Identity} {run : List UInt8 → List UInt8 → Option (List UInt8)} {t : Tree}
  {f : Frame} {fd : Nat} {conn conn' : Conn} {req : Request}

theorem contents_seenBy {p content : List UInt8} :
    (seenBy who run t).contents p = some content ↔
      ∃ node, t.lookup p = some node ∧ S_ISREG node.mode = true ∧ node.mayRead who = true ∧
        node.content = content := by
  simp only [seenBy,Option.bind_eq_some_iff,Option.ite_none_right_eq_some,Bool.and_eq_true,
    Option.some.injEq,and_assoc]

theorem parses_inode (h : Parses (seenBy who run t) f fd conn (some req,conn')) :
    ∃ node, t.lookup req.filename = some node ∧ permitted req.isStatic node.mode = true ∧
      req.filesize = (node.content.length : Int).bmod (2^32) ∧
      conn' = { conn with input := conn'.input } := by
  obtain ⟨_,_,hverdict,hconn⟩ := parses_some h
  obtain ⟨sbuf,hstat,hperm,rfl⟩ := verdict_ok hverdict
  obtain ⟨node,hnode,rfl⟩ := Option.map_eq_some_iff.mp hstat
  have hlen := Tree.length_lt hnode
  have hroom : PATH_MAX ≤ MAXBUF-1 := by decide
  refine ⟨node,?_,hperm,by dsimp only,hconn⟩
  rw [List.take_of_length_le (by omega)]
  exact hnode

end Accepted

section Admission

variable {who : Identity} {run : List UInt8 → List UInt8 → Option (List UInt8)} {t : Tree}
  {f : Frame} {fd : Nat} {conn conn' : Conn} {req : Request}

theorem bmod_pos (n : Nat) : 0 < (n : Int).bmod (2^32) ↔ 0 < n % 2^32 ∧ n % 2^32 < 2^31 := by
  simp only [Int.bmod_def]
  omega

theorem bmod_le (n : Nat) (h : 0 < (n : Int).bmod (2^32)) :
    ((n : Int).bmod (2^32)).toNat ≤ n := by
  simp only [Int.bmod_def] at h ⊢
  omega

/-- When the worker can serve what the acceptor has admitted. -/
theorem admitted_served (h : Parses (seenBy who run t) f fd conn (some req,conn')) :
    (∃ c, requestServeStatic (seenBy who run t) req.filename req.filesize conn' = .done c) ↔
      WritesPass 2 conn.outcomes ∧ ∃ node, t.lookup req.filename = some node ∧
        node.mayRead who = true ∧ 0 < node.content.length % 2^32 ∧
        node.content.length % 2^32 < 2^31 := by
  obtain ⟨node,hnode,hperm,hsize,hconn⟩ := parses_inode h
  have hreg : S_ISREG node.mode = true := by
    rw [permitted,Bool.and_eq_true] at hperm
    exact hperm.1
  rw [requestServeStatic_returns,hsize,bmod_pos,hconn]
  refine and_congr_right fun _ => ?_
  constructor
  · rintro ⟨hlen,content,hc,_,_⟩
    obtain ⟨node',hnode',_,hread,_⟩ := contents_seenBy.mp hc
    rw [hnode] at hnode'
    cases hnode'
    exact ⟨node,hnode,hread,hlen⟩
  · rintro ⟨node',hnode',hread,hlen⟩
    rw [hnode] at hnode'
    cases hnode'
    refine ⟨hlen,_,contents_seenBy.mpr ⟨node,hnode,hreg,hread,rfl⟩,?_,?_⟩
    · rintro he
      rw [he] at hlen
      simp at hlen
    · exact (Accepted.reach_le _ _).trans
        ((bmod_le _ ((bmod_pos _).mpr hlen)).trans (Nat.le_add_right _ _))

def fileOf (content : List UInt8) : Tree :=
  Tree.empty.set (ascii "./a") (some ⟨0o100644,1,1,content⟩)

def visitor : Identity := ⟨2,[2]⟩

def getA : List UInt8 := ascii "GET /a HTTP/1.0\r\n\r\n"

theorem hi_parses : ∃ conn', Parses (seenBy visitor (fun _ _ => none) (fileOf [104,105]))
    .zeros 4 (client getA) (some ⟨4,ascii "./a",[],true,2⟩,conn') := ⟨_,0,rfl⟩

theorem admitted_served_visitor : ∃ req conn', req.isStatic = true ∧
    Parses (seenBy visitor (fun _ _ => none) (fileOf [104,105])) .zeros 4 (client getA)
      (some req,conn') ∧
    ∃ c, requestServeStatic (seenBy visitor (fun _ _ => none) (fileOf [104,105])) req.filename
      req.filesize conn' = .done c := by
  obtain ⟨conn',h⟩ := hi_parses
  refine ⟨_,conn',rfl,h,(admitted_served h).mpr ⟨fun i _ => ?_,_,rfl,rfl,by decide,by decide⟩⟩
  change Accepted.all ≠ .error
  decide

/-- An empty file is admitted, and aborts the server. -/
theorem empty_file_aborts : ∃ req conn', req.isStatic = true ∧
    Parses (seenBy visitor (fun _ _ => none) (fileOf [])) .zeros 4 (client getA)
      (some req,conn') ∧
    requestServeStatic (seenBy visitor (fun _ _ => none) (fileOf [])) req.filename
      req.filesize conn' = .abort := by
  refine ⟨⟨4,ascii "./a",[],true,0⟩,_,rfl,⟨0,rfl⟩,rfl⟩

end Admission

section Changes

/-- The worker does not abort, and if it answers, with what the file then is:
its length and its content. -/
def Survives (fs : FileSystem) (req : Request) (conn : Conn) : Prop :=
  requestServe fs req conn ≠ .abort ∧
    ∀ conn', requestServe fs req conn = .done conn' →
      ∃ content, fs.contents req.filename = some content ∧ conn'.sent = conn.sent ++
        staticHeader content.length (requestGetFiletype req.filename) ++ content

/-- The file can be opened and mapped, and its length is that of the old one,
as far as an `int` can tell. -/
def Unharmed (who : Identity) (old new : Inode) : Prop :=
  S_ISREG new.mode = true ∧ new.mayRead who = true ∧ 0 < new.content.length ∧
    new.content.length < 2^31 ∧ new.content.length % 2^32 = old.content.length % 2^32

theorem requestServeStatic_const (fs : FileSystem) (filename : List UInt8) (size : Int)
    {conn : Conn} (hall : conn.outcomes = Stream'.const .all) :
    (∃ content, fs.contents filename = some content ∧ content ≠ [] ∧ 0 < size ∧
      size.toNat ≤ pageEnd content.length ∧
      requestServeStatic fs filename size conn = .done { conn with
        sent := conn.sent ++ staticHeader size (requestGetFiletype filename) ++
          mapped content size.toNat }) ∨
    requestServeStatic fs filename size conn = .abort := by
  cases hf : fs.contents filename with
  | none => exact .inr (by simp [requestServeStatic,openOrDie,hf])
  | some content =>
    by_cases hsize : 0 < size
    · by_cases hne : content = []
      · subst hne
        refine .inr ?_
        have hw := writeAll_const conn hall [staticHeader size (requestGetFiletype filename)]
        simp only [writeAll,bind_done] at hw
        simp [requestServeStatic,openOrDie,mmapOrDie,hf,hsize,hw,writeMapped,mapped,pageEnd]
      · have hreach : (conn.outcomes.get 1).reach size.toNat = size.toNat := by rw [hall]; rfl
        by_cases hend : size.toNat ≤ pageEnd content.length
        · refine .inl ⟨content,rfl,hne,hsize,hend,?_⟩
          rw [requestServeStatic_done hf hne hsize (hreach.trans_le hend),writeAll_const conn hall]
          simp
        · -- the second write meets a bad address
          refine .inr ?_
          have hw := writeAll_const conn hall [staticHeader size (requestGetFiletype filename)]
          simp only [writeAll,bind_done] at hw
          have hhead : conn.outcomes.head.reach size.toNat = size.toNat := by rw [hall]; rfl
          rw [requestServeStatic_eq hf hne hsize,hw,done_bind]
          simp [hhead,hend]
    · exact .inr (by simp [requestServeStatic,openOrDie,mmapOrDie,hf,hsize])

theorem mapped_length (content : List UInt8) : mapped content content.length = content := by
  rw [mapped,List.take_append_of_le_length (Nat.le_refl _),List.take_length]

theorem staticHeader_inj {m n : Nat} {filetype x y : List UInt8}
    (h : staticHeader m filetype ++ x = staticHeader n filetype ++ y) : m = n := by
  simp only [staticHeader,List.append_assoc,List.append_cancel_left_eq] at h
  exact decimal_inj h

theorem survives_iff_size {fs : FileSystem} {req : Request} {conn : Conn}
    (hs : req.isStatic = true) (hopen : conn.isOpen = true)
    (hall : conn.outcomes = Stream'.const .all) :
    Survives fs req conn ↔ ∃ content, fs.contents req.filename = some content ∧
      content ≠ [] ∧ req.filesize = content.length := by
  rcases requestServeStatic_const fs req.filename req.filesize hall with
    ⟨content,hc,hne,hpos,_,hdone⟩ | habort
  · have hreply : requestServe fs req conn = .done { conn with
        sent := conn.sent ++ staticHeader req.filesize (requestGetFiletype req.filename) ++
          mapped content req.filesize.toNat
        isOpen := false } := by
      simp [requestServe,hs,hdone,closeOrDie,hopen]
    obtain ⟨k,hk⟩ : ∃ k : Nat, req.filesize = k := ⟨req.filesize.toNat,by omega⟩
    constructor
    · rintro ⟨_,hans⟩
      obtain ⟨content',hc',hsent⟩ := hans _ hreply
      rw [hc] at hc'
      cases hc'
      rw [List.append_assoc,List.append_assoc,List.append_cancel_left_eq,hk] at hsent
      exact ⟨content,hc,hne,by rw [hk,staticHeader_inj hsent]⟩
    · rintro ⟨content',hc',_,hsize⟩
      rw [hc] at hc'
      cases hc'
      refine ⟨by rw [hreply]; simp,fun conn' hd => ⟨content,hc,?_⟩⟩
      rw [hreply] at hd
      cases hd
      rw [hsize,Int.toNat_natCast,mapped_length]
  · have hdie : requestServe fs req conn = .abort := by simp [requestServe,hs,habort]
    refine iff_of_false (fun hsur => hsur.1 hdie) ?_
    rintro ⟨content,hc,hne,hsize⟩
    have hpos : 0 < req.filesize := by
      have hlen := List.length_pos_iff.mpr hne
      omega
    have hend : (conn.outcomes.get 1).reach req.filesize.toNat ≤ pageEnd content.length := by
      rw [hsize,Int.toNat_natCast]
      exact (Accepted.reach_le _ _).trans (Nat.le_add_right _ _)
    rw [requestServeStatic_done hc hne hpos hend,writeAll_const conn hall] at habort
    cases habort

theorem bmod_eq_iff (m n : Nat) :
    (m : Int).bmod (2^32) = n ↔ n < 2^31 ∧ n % 2^32 = m % 2^32 := by
  simp only [Int.bmod_def]
  omega

variable {who : Identity} {run : List UInt8 → List UInt8 → Option (List UInt8)} {t : Tree}
  {f : Frame} {fd : Nat} {bytes : List UInt8} {conn' : Conn} {req : Request}

/-- Which changes a queued request survives. -/
theorem survives_changes (changes : List Change)
    (h : Parses (seenBy who run t) f fd (client bytes) (some req,conn'))
    (hs : req.isStatic = true) :
    Survives (seenBy who run (t.after changes)) req conn' ↔
      ∃ old new, t.lookup req.filename = some old ∧
        (t.after changes).lookup req.filename = some new ∧ Unharmed who old new := by
  obtain ⟨old,hold,_,hsize,hconn⟩ := parses_inode h
  rw [survives_iff_size hs (by rw [hconn]; rfl) (by rw [hconn]; rfl)]
  constructor
  · rintro ⟨content,hc,hne,hlen⟩
    obtain ⟨new,hnew,hreg,hread,rfl⟩ := contents_seenBy.mp hc
    rw [hsize] at hlen
    exact ⟨old,new,hold,hnew,hreg,hread,List.length_pos_iff.mpr hne,(bmod_eq_iff _ _).mp hlen⟩
  · rintro ⟨old',new,hold',hnew,hreg,hread,hlen,hu⟩
    rw [hold] at hold'
    cases hold'
    refine ⟨new.content,contents_seenBy.mpr ⟨new,hnew,hreg,hread,rfl⟩,
      List.length_pos_iff.mp hlen,?_⟩
    rw [hsize]
    exact (bmod_eq_iff _ _).mpr hu

theorem survives_replacement : ∃ req conn',
    Parses (seenBy visitor (fun _ _ => none) (fileOf [104,105])) .zeros 4 (client getA)
      (some req,conn') ∧
    Survives (seenBy visitor (fun _ _ => none)
      ((fileOf [104,105]).after [.replace (ascii "./a") ⟨0o100444,1,1,[72,73]⟩])) req conn' := by
  obtain ⟨conn',h⟩ := hi_parses
  exact ⟨_,conn',h,(survives_changes _ h rfl).mpr ⟨_,_,rfl,rfl,by decide,by decide,by decide,
    by decide,by decide⟩⟩

/-- The file is removed while its request waits. -/
theorem removed_file_aborts : ∃ req conn',
    Parses (seenBy visitor (fun _ _ => none) (fileOf [104,105])) .zeros 4 (client getA)
      (some req,conn') ∧ req.isStatic = true ∧
    requestServe (seenBy visitor (fun _ _ => none)
      ((fileOf [104,105]).after [.remove (ascii "./a")])) req conn' = .abort ∧
    ¬ Survives (seenBy visitor (fun _ _ => none)
      ((fileOf [104,105]).after [.remove (ascii "./a")])) req conn' := by
  obtain ⟨conn',h⟩ := hi_parses
  exact ⟨_,conn',h,rfl,rfl,fun hsur => hsur.1 rfl⟩

end Changes

end ConcurrentWebServer.Requests
