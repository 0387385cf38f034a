import ConcurrentWebServer.ClientReplies
import ConcurrentWebServer.ServedFiles
import Mathlib.Data.List.Sort
import Mathlib.Data.String.Basic
set_option autoImplicit false

/-!
The files that setup_files.sh writes for the experiments, and the requests for
them: each is answered with its file, in every run of the server.
-/

namespace ConcurrentWebServer.LoadClient
open Execution CStrings MesaMonitor PosixFiles PythonText Queueing Requests Server

section Setup

/-- `seq -w 1 n`. -/
def seqW (n : Nat) : List String :=
  (List.range' 1 n).map fun i => (toString i).leftpad (toString n).length '0'

def FileType.dir : FileType → String
  | .small => "small"
  | .large => "large"

def FileType.bytes : FileType → Nat
  | .small => 10*1024
  | .large => 500*1024

def FileType.count : FileType → Nat
  | .small => 50
  | .large => 20

def FileType.names (ftype : FileType) : List String :=
  (seqW ftype.count).map fun i => ftype.dir ++ "_" ++ i ++ ".html"

/-- What `write_file` writes; `none` for a `ValueError`. -/
def writeFile (target : Nat) : Option (List UInt8) :=
  let header := ascii "<html><body><pre>\n"
  let footer := ascii "\n</pre></body></html>\n"
  let needed : Int := target-header.length-footer.length
  if needed < 0 then none else some (header ++ List.replicate needed.toNat 120 ++ footer)

def uriOf (dir name : String) : String := "/" ++ dir ++ "/" ++ name

def sitePath (dir name : String) : List UInt8 := ascii "." ++ encode (uriOf dir name)

structure Creator where
  mode : Nat
  uid : Nat
  gid : Nat

def Creator.inode (creator : Creator) (content : List UInt8) : Inode :=
  ⟨creator.mode,creator.uid,creator.gid,content⟩

def siteFiles (creator : Creator) (ftype : FileType) : Option (List (List UInt8 × Inode)) :=
  (writeFile ftype.bytes).map fun content =>
    ftype.names.map fun name => (sitePath ftype.dir name,creator.inode content)

def setupFiles (creator : Creator) : Option Tree := do
  let small ← siteFiles creator .small
  let large ← siteFiles creator .large
  pure (Tree.empty.after ((small ++ large).map fun file => .replace file.1 file.2))

def isHtml (name : String) : Bool := ".html".toList.isSuffixOf name.toList

/-- `small_uris` and `large_uris` of `main`, from the names in the directory in
the order in which `glob` comes across them. -/
def discover (dir : String) (listing : List String) : List String :=
  ((listing.filter isHtml).map (uriOf dir)).mergeSort (· ≤ ·)

end Setup

section Site

theorem writeFile_length {target : Nat} {content : List UInt8}
    (h : writeFile target = some content) : content.length = target := by
  simp only [writeFile] at h
  split_ifs at h with hneeded
  cases h
  simp only [List.length_append,List.length_replicate]
  omega

theorem writeFile_some {target : Nat} (h : 40 ≤ target) :
    ∃ content, writeFile target = some content := by
  have hheader : (ascii "<html><body><pre>\n").length = 18 := by decide
  have hfooter : (ascii "\n</pre></body></html>\n").length = 22 := by decide
  simp only [writeFile,hheader,hfooter]
  exact ⟨_,if_neg (by omega)⟩

theorem mem_discover {dir uri : String} {listing : List String} (h : uri ∈ discover dir listing) :
    ∃ name ∈ listing, uri = uriOf dir name := by
  rw [discover,List.mem_mergeSort,List.mem_map] at h
  obtain ⟨name,hname,rfl⟩ := h
  exact ⟨name,List.mem_of_mem_filter hname,rfl⟩

theorem discover_mem {dir name : String} {listing : List String} (h : name ∈ listing)
    (hhtml : isHtml name = true) : uriOf dir name ∈ discover dir listing := by
  rw [discover,List.mem_mergeSort]
  exact List.mem_map_of_mem (List.mem_filter.mpr ⟨h,hhtml⟩)

def Lists (t : Tree) (dir : String) (listing : List String) : Prop :=
  ∀ name ∈ listing, t.lookup (sitePath dir name) ≠ none

structure Plain (uri : List UInt8) : Prop where
  nonempty : uri ≠ []
  chars : ∀ c ∈ uri, isspace c = false ∧ c ≠ 0
  short : uri.length+1 < PATH_MAX
  static : strstr uri (ascii "cgi") = false
  file : (0 :: uri).getLast (by simp) ≠ 47
  html : strstr (ascii "." ++ uri) (ascii ".html") = true

instance (uri : List UInt8) : Decidable (Plain uri) :=
  decidable_of_iff (uri ≠ [] ∧ (uri.all fun c => !isspace c && c != 0) = true ∧
      uri.length+1 < PATH_MAX ∧ strstr uri (ascii "cgi") = false ∧
      (0 :: uri).getLast (by simp) ≠ 47 ∧ strstr (ascii "." ++ uri) (ascii ".html") = true)
    ⟨fun h => ⟨h.1,plain_of_all h.2.1,h.2.2.1,h.2.2.2.1,h.2.2.2.2.1,h.2.2.2.2.2⟩,
      fun h => ⟨h.nonempty,List.all_eq_true.mpr fun c hc => by simpa using h.chars c hc,h.short,
        h.static,h.file,h.html⟩⟩

theorem names_plain (ftype : FileType) :
    ∀ name ∈ ftype.names, Plain (encode (uriOf ftype.dir name)) := by
  cases ftype <;> decide +kernel

theorem names_apart (ftype ftype' : FileType) : ∀ name ∈ ftype'.names,
    encode (uriOf ftype.dir "") <+: encode (uriOf ftype'.dir name) → ftype' = ftype := by
  cases ftype with
  | small =>
    cases ftype' with
    | small => exact fun _ _ _ => rfl
    | large => decide +kernel
  | large =>
    cases ftype' with
    | small => decide +kernel
    | large => exact fun _ _ _ => rfl

variable {creator : Creator} {t : Tree} {ftype : FileType} {p : List UInt8} {node : Inode}

theorem siteFiles_mem {files : List (List UInt8 × Inode)} (h : siteFiles creator ftype = some files)
    (hm : (p,node) ∈ files) : ∃ content name, content.length = ftype.bytes ∧ name ∈ ftype.names ∧
      p = sitePath ftype.dir name ∧ node = creator.inode content := by
  obtain ⟨content,hw,rfl⟩ := Option.map_eq_some_iff.mp h
  obtain ⟨name,hname,he⟩ := List.mem_map.mp hm
  cases he
  exact ⟨content,name,writeFile_length hw,hname,rfl,rfl⟩

theorem setupFiles_lookup (hsite : setupFiles creator = some t) (h : t.lookup p = some node) :
    ∃ ftype content name, content.length = FileType.bytes ftype ∧ name ∈ FileType.names ftype ∧
      p = sitePath ftype.dir name ∧ node = creator.inode content := by
  rw [setupFiles,Option.bind_eq_bind] at hsite
  obtain ⟨small,hsmall,hrest⟩ := Option.bind_eq_some_iff.mp hsite
  obtain ⟨large,hlarge,htree⟩ := Option.bind_eq_some_iff.mp hrest
  cases htree
  rcases Tree.after_replace h with hm | hnone
  · rcases List.mem_append.mp hm with hm | hm
    · exact ⟨.small,siteFiles_mem hsmall hm⟩
    · exact ⟨.large,siteFiles_mem hlarge hm⟩
  · cases hnone

theorem discovered (hsite : setupFiles creator = some t) {listing : List String}
    (hlist : Lists t ftype.dir listing) {uri : String} (hu : uri ∈ discover ftype.dir listing) :
    Plain (encode uri) ∧ ∃ content, content.length = ftype.bytes ∧
      t.lookup (ascii "." ++ encode uri) = some (creator.inode content) := by
  obtain ⟨name,hname,rfl⟩ := mem_discover hu
  obtain ⟨node,hnode⟩ := Option.ne_none_iff_exists'.mp (hlist name hname)
  obtain ⟨ftype',content,name',hlen,hname',hpath,rfl⟩ := setupFiles_lookup hsite hnode
  have huri : encode (uriOf ftype.dir name) = encode (uriOf ftype'.dir name') :=
    List.append_cancel_left hpath
  have hdir : encode (uriOf ftype.dir "") <+: encode (uriOf ftype.dir name) := by
    refine ⟨encode name,?_⟩
    simp [uriOf,encode]
  rw [huri] at hdir
  have hsame : ftype' = ftype := names_apart ftype ftype' name' hname' hdir
  subst hsame
  exact ⟨huri ▸ names_plain ftype' name' hname',content,hlen,hnode⟩

theorem setupFiles_some (creator : Creator) : ∃ t, setupFiles creator = some t := by
  have hwrite : ∀ ftype, ∃ content, writeFile (FileType.bytes ftype) = some content := by
    intro ftype
    cases ftype <;> exact writeFile_some (by decide)
  obtain ⟨small,hsmall⟩ := hwrite .small
  obtain ⟨large,hlarge⟩ := hwrite .large
  simp [setupFiles,siteFiles,hsmall,hlarge]

theorem setupFiles_lists (hsite : setupFiles creator = some t) :
    Lists t ftype.dir ftype.names := by
  rw [setupFiles,Option.bind_eq_bind] at hsite
  obtain ⟨small,hsmall,hrest⟩ := Option.bind_eq_some_iff.mp hsite
  obtain ⟨large,hlarge,htree⟩ := Option.bind_eq_some_iff.mp hrest
  cases htree
  obtain ⟨_,_,rfl⟩ := Option.map_eq_some_iff.mp hsmall
  obtain ⟨_,_,rfl⟩ := Option.map_eq_some_iff.mp hlarge
  intro name hname
  refine Tree.after_replace_found ?_ (.inl ?_)
  · have hplain := (names_plain ftype name hname).short
    rw [sitePath,List.length_append,Nat.add_comm]
    exact hplain
  · rw [List.map_append,List.map_map,List.map_map,List.mem_append]
    cases ftype with
    | small => exact .inl (List.mem_map_of_mem hname)
    | large => exact .inr (List.mem_map_of_mem hname)

end Site

section Replies

variable {creator : Creator} {t : Tree} {who : Identity}
  {run : List UInt8 → List UInt8 → Option (List UInt8)} {uri content : List UInt8} {req : Request}

theorem Plain.resolved (h : Plain uri) : requestParseUri 0 uri = (true,ascii "." ++ uri,[]) := by
  have hlast : ((0 :: uri).getLast (by simp) == 47) = false := beq_eq_false_iff_ne.mpr h.file
  simp [requestParseUri,h.static,hlast]

theorem Plain.filetype (h : Plain uri) :
    requestGetFiletype (ascii "." ++ uri) = ascii "text/html" := by
  rw [requestGetFiletype,if_pos h.html]

/-- A page of the experiments is sent whole, behind a header with its length. -/
structure Page (fs : FileSystem) (uri content : List UInt8) : Prop where
  plain : Plain uri
  stat : ∃ sbuf, fs.stat (ascii "." ++ uri) = some sbuf ∧ permitted true sbuf.stMode = true ∧
    sbuf.stSize = content.length
  openable : openOrDie fs (ascii "." ++ uri) = .done content
  size : 0 < content.length ∧ content.length < 2^31

variable {fs : FileSystem} {bytes out : List UInt8}

theorem Page.opened (h : Page fs uri content) (hv : Vetted fs uri req) :
    req.isStatic = true ∧ req.filename = ascii "." ++ uri ∧ req.filesize = content.length := by
  have hres := hv.resolved
  rw [h.plain.resolved,Prod.mk.injEq,Prod.mk.injEq] at hres
  obtain ⟨hstatic,hname,_⟩ := hres
  obtain ⟨sbuf,hst,_,hlen⟩ := h.stat
  obtain ⟨sbuf',hst',_,hsize⟩ := hv.admitted
  rw [← hname,hst] at hst'
  cases hst'
  refine ⟨hstatic.symm,hname.symm,?_⟩
  rw [hsize,hlen,Int.bmod_def]
  have hlt := h.size.2
  omega

theorem Page.mapped (h : Page fs uri content) (hv : Vetted fs uri req) :
    mmapOrDie content req.filesize = .done content := by
  have hpos := h.size.1
  rw [mmapOrDie,(h.opened hv).2.2,Int.toNat_natCast,mapped_length]
  simp [hpos]

theorem Page.whole (h : Page fs uri content) (hv : Vetted fs uri req) :
    Whole content req.filesize := by
  rw [(h.opened hv).2.2]
  exact whole_file (List.length_pos_iff.mp h.size.1)

theorem Page.servable (h : Page fs uri content) (hv : Vetted fs uri req) : Servable fs req := by
  obtain ⟨hstatic,hname,_⟩ := h.opened hv
  refine ⟨fun _ => ⟨content,content,?_,h.mapped hv,h.whole hv⟩,fun hd => ?_⟩
  · rw [hname,h.openable]
  · rw [hstatic] at hd
    cases hd

theorem Page.reply (h : Page fs uri content) (hp : Proper bytes (ascii "GET") uri)
    (hr : Replies fs bytes out) :
    out = staticHeader content.length (ascii "text/html") ++ content := by
  have hget : isGet (ascii "GET") = true := by decide
  obtain ⟨req,ho⟩ : ∃ req, outcome fs 0 (ascii "GET") uri = .ok req := by
    obtain ⟨sbuf,hst,hperm,_⟩ := h.stat
    simp only [outcome,hget,if_true,verdict,h.plain.resolved,hst,hperm]
    exact ⟨_,rfl⟩
  have hv := hp.vetted ho
  obtain ⟨hstatic,hname,hsize⟩ := h.opened hv
  have hopen : openOrDie fs req.filename = .done content := by rw [hname,h.openable]
  have hserves := serves_static hstatic hopen (h.mapped hv) (h.whole hv)
  rw [hsize,hname,h.plain.filetype] at hserves
  exact hp.reply_unique hr (hp.replies (by rw [ho]; exact hserves))

def FileType.received : FileType → Nat
  | .small => 10332
  | .large => 512093

theorem received_eq {ftype : FileType} (hlen : content.length = ftype.bytes) :
    (staticHeader content.length (ascii "text/html") ++ content).length = ftype.received := by
  rw [List.length_append,hlen]
  cases ftype <;> decide

theorem seenBy_page (hperm : permitted true creator.mode = true)
    (hread : (creator.inode []).mayRead who = true) (hplain : Plain uri) {ftype : FileType}
    (hlen : content.length = ftype.bytes)
    (ht : t.lookup (ascii "." ++ uri) = some (creator.inode content)) :
    Page (seenBy who run t) uri content := by
  have hreg : S_ISREG creator.mode = true := by
    rw [permitted,Bool.and_eq_true] at hperm
    exact hperm.1
  refine ⟨hplain,⟨_,by simp only [seenBy,ht,Option.map_some]; rfl,hperm,rfl⟩,?_,?_⟩
  · have hc : (seenBy who run t).contents (ascii "." ++ uri) = some content :=
      contents_seenBy.mpr ⟨_,ht,hreg,hread,rfl⟩
    rw [openOrDie,hc]
    rfl
  · rw [hlen]
    cases ftype <;> decide

end Replies

section Runs

variable {W : Type} [Fintype W] [DecidableEq W] {inputs : Nat → Stream' Received}
  {uri host : Nat → String} {ftype : Nat → FileType} {boot : Boot} {capacity : Nat}
  {policy : SchedPolicy} {malloced : Int → Job} {b₀ : Buffer Job} {s s' : Process W}
  {F : Type} [Sub F] [Mul F] [OfScientific F]
  {creator : Creator} {t : Tree} {who : Identity}
  {run : List UInt8 → List UInt8 → Option (List UInt8)} {listing : FileType → List String}

def Measured (F : Type) [Sub F] [Mul F] [OfScientific F] (s : Process W) (ftype : FileType)
    (c : Nat) : Prop :=
  ∀ chunks : List (List UInt8), [] ∉ chunks → chunks.flatten = (s.conns c).sent →
    ∀ fuel, chunks.length < fuel → ∀ t0 t1 : F,
      httpGet fuel t0 t1 (incoming chunks) =
        .done (some ((t1-t0)*1000.0,200,ftype.received))

theorem discovered_page (hsite : setupFiles creator = some t)
    (hperm : permitted true creator.mode = true) (hread : (creator.inode []).mayRead who = true)
    (hlist : ∀ ftype, Lists t ftype.dir (listing ftype))
    (huri : ∀ c, uri c ∈ discover (ftype c).dir (listing (ftype c))) (c : Nat) :
    ∃ content, content.length = (ftype c).bytes ∧
      Page (seenBy who run t) (encode (uri c)) content := by
  obtain ⟨hplain,content,hlen,ht⟩ := discovered hsite (hlist _) (huri c)
  exact ⟨content,hlen,seenBy_page hperm hread hplain hlen ht⟩

theorem discovered_sendable (hsite : setupFiles creator = some t)
    (hlist : ∀ ftype, Lists t ftype.dir (listing ftype))
    (huri : ∀ c, uri c ∈ discover (ftype c).dir (listing (ftype c)))
    (hhost : ∀ c, 10 ∉ encode (host c)) (c : Nat) : Sendable (uri c) (host c) := by
  obtain ⟨hplain,_⟩ := discovered hsite (hlist _) (huri c)
  have hshort := hplain.short
  have hmax : PATH_MAX ≤ MAXBUF-16 := by decide
  exact ⟨hplain.nonempty,hplain.chars,by omega,hhost c⟩

theorem discovered_servable (hpage : ∀ c, ∃ content, content.length = (ftype c).bytes ∧
      Page (seenBy who run t) (encode (uri c)) content) :
    ∀ c req, Vetted (seenBy who run t) (encode (uri c)) req →
      Servable (seenBy who run t) req := by
  intro c req hv
  obtain ⟨_,_,hp⟩ := hpage c
  exact hp.servable hv

theorem measured_at_rest [Nonempty W] (hc : FitsInt policy capacity)
    (hinit : bufferInit malloced capacity policy = .done b₀)
    (hpage : ∀ c, ∃ content, content.length = (ftype c).bytes ∧
      Page (seenBy who run t) (encode (uri c)) content)
    (hu : ∀ c, Sendable (uri c) (host c))
    (hin : ∀ c, inputs c = fromClient (encode (requestText (uri c) (host c))))
    (hfree : {fd | boot.fds fd = none}.Infinite)
    (h : Reaches (seenBy who run t) inputs (Process.start W boot b₀) s) {n k : Nat}
    (hg : Goes (seenBy who run t) inputs n k s s')
    (hstop : ∀ s'', ¬ Working (seenBy who run t) inputs s' s'') {c : Nat}
    (hlt : c < s.accepted) : Measured F s' (ftype c) c := by
  intro chunks hne hcut fuel hf t0 t1
  obtain ⟨content,hlen,hp⟩ := hpage c
  obtain ⟨out,hr,hrec⟩ := recorded_at_rest (F := F) hc hinit hin hu (discovered_servable hpage)
    hfree h hg hstop hlt
  have hstatus : statusFor (seenBy who run t) (encode (uri c)) = 200 := by
    obtain ⟨sbuf,hst,hperm,_⟩ := hp.stat
    simp only [statusFor,hp.plain.resolved,hst,hperm,if_true]
  rw [hrec chunks hne hcut fuel hf t0 t1,hstatus,hp.reply (hu c).proper hr,received_eq hlen]

/-- The requests of the load client for the files of setup_files.sh, in any
number and order, and whatever the policy and the number of threads. -/
theorem experiment_measured [Nonempty W] (hc : FitsInt policy capacity)
    (hinit : bufferInit malloced capacity policy = .done b₀)
    (hsite : setupFiles creator = some t) (hperm : permitted true creator.mode = true)
    (hread : (creator.inode []).mayRead who = true)
    (hlist : ∀ ftype, Lists t ftype.dir (listing ftype))
    (huri : ∀ c, uri c ∈ discover (ftype c).dir (listing (ftype c)))
    (hhost : ∀ c, 10 ∉ encode (host c))
    (hin : ∀ c, inputs c = fromClient (encode (requestText (uri c) (host c))))
    (hfree : {fd | boot.fds fd = none}.Infinite)
    (h : Reaches (seenBy who run t) inputs (Process.start W boot b₀) s) :
    (∀ n k s', Goes (seenBy who run t) inputs n k s s' →
      (∀ s'', ¬ Working (seenBy who run t) inputs s' s'') →
      ∀ c < s.accepted, Measured F s' (ftype c) c) ∧
    ∃ n s', Goes (seenBy who run t) inputs n 0 s s' ∧
      ∀ c < s.accepted, Measured F s' (ftype c) c := by
  have hpage : ∀ c, ∃ content, content.length = (ftype c).bytes ∧
      Page (seenBy who run t) (encode (uri c)) content :=
    discovered_page hsite hperm hread hlist huri
  have hu := discovered_sendable hsite hlist huri hhost
  have hserve := discovered_servable hpage
  have hrest : ∀ n k s', Goes (seenBy who run t) inputs n k s s' →
      (∀ s'', ¬ Working (seenBy who run t) inputs s' s'') →
      ∀ c < s.accepted, Measured F s' (ftype c) c := by
    intro n k s' hg hstop c hlt
    exact measured_at_rest hc hinit hpage hu hin hfree h hg hstop hlt
  obtain ⟨n,s',hg,hstop⟩ := comes_to_rest hc hinit hin (fun c => (hu c).proper) hserve h
  exact ⟨hrest,n,s',hg,hrest n 0 s' hg hstop⟩

theorem experiment_measured_large : ∃ s : Process (Fin 2), s.accepted = 1 ∧
    Measured ℚ s .large 0 := by
  obtain ⟨t,hsite⟩ := setupFiles_some ⟨0o100644,1000,1000⟩
  obtain ⟨ftype,hftype⟩ : ∃ ftype : Nat → FileType, ∀ c, ftype c = .large := ⟨_,fun _ => rfl⟩
  have hlarge : ∀ c, "/large/large_01.html" ∈ discover (ftype c).dir (ftype c).names := by
    intro c
    rw [hftype]
    have hname : "large_01.html" ∈ FileType.names .large := by decide
    exact discover_mem hname (by decide)
  have hhost : 10 ∉ encode "localhost" := by decide
  have hread : (Creator.inode ⟨0o100644,1000,1000⟩ []).mayRead ⟨1000,[1000]⟩ = true := by decide
  obtain ⟨s,hrun,hone⟩ : ∃ s, Reaches (seenBy ⟨1000,[1000]⟩ (fun _ _ => none) t)
      (fun _ => fromClient (encode (requestText "/large/large_01.html" "localhost")))
      (Process.start (Fin 2) ⟨fun _ => none,by simp⟩
        ⟨fun _ => ⟨⟨0,[],[],true,0⟩,0⟩,16,0,0,0,.sff⟩) s ∧ s.accepted = 1 :=
    ⟨_,.single (.accept 4 rfl rfl),rfl⟩
  obtain ⟨_,n,s',hg,hmeasured⟩ := experiment_measured (F := ℚ)
    (fitsInt_of_le .sff 16 (by decide) (by decide)) rfl hsite (by decide) hread
    (fun _ => setupFiles_lists hsite) hlarge (fun _ => hhost) (fun _ => rfl) free_infinite hrun
  have hlast := hmeasured 0 (by rw [hone]; decide)
  rw [hftype] at hlast
  exact ⟨s',hg.accepted.trans hone,hlast⟩

end Runs

end ConcurrentWebServer.LoadClient
