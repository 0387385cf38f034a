import ConcurrentWebServer.MessageHeads
import ConcurrentWebServer.ShortWrites
set_option autoImplicit false

/-! What a client that reads `Content-Length` makes of a reply. -/

namespace ConcurrentWebServer.Requests
open Execution CStrings MessageHeads

def contentLength : List UInt8 := ascii "Content-Length"

/-- The head of the reply has one `Content-Length`, which is the length of what
follows the head, and that is `body`. -/
def DecodesTo (reply body : List UInt8) : Prop :=
  ∃ head value, splitHead reply = some (head,body) ∧
    (headLines head).filterMap (fieldValue contentLength) = [value] ∧
    decimal value = some body.length

section Heads

theorem requestGetFiletype_lf (filename : List UInt8) : 10 ∉ requestGetFiletype filename := by
  unfold requestGetFiletype
  split_ifs <;> decide

theorem digits_lf (n : Nat) : 10 ∉ ascii (toString n) := by
  intro h
  have hrange := (ascii_digit h).1
  revert hrange
  decide

theorem lengthField_lf (n : Nat) : 10 ∉ ascii "Content-Length: " ++ ascii (toString n) := by
  rw [List.mem_append,not_or]
  exact ⟨by decide,digits_lf n⟩

theorem lengthField_value (n : Nat) :
    fieldValue contentLength (ascii "Content-Length: " ++ ascii (toString n)) =
      some (ascii (toString n)) := by
  have hname : ascii "Content-Length: " = contentLength ++ [58,32] := by decide
  rw [hname,List.append_assoc]
  refine fieldValue_name (by decide : 58 ∉ contentLength) fun c hc => ?_
  exact isspace_digit (ascii_digit (List.mem_of_mem_head? hc)).1

theorem typeField_value (filetype : List UInt8) :
    fieldValue contentLength (ascii "Content-Type: " ++ filetype) = none := by
  have hname : ascii "Content-Type: " = ascii "Content-Type" ++ [58,32] := by decide
  rw [hname,List.append_assoc]
  exact fieldValue_other (by decide) (by decide)

def staticMessage (filename content : List UInt8) : Message where
  first := ascii "HTTP/1.0 200 OK"
  fields := [ascii "Server: OSTEP WebServer",
    ascii "Content-Length: " ++ ascii (toString content.length),
    ascii "Content-Type: " ++ requestGetFiletype filename]
  body := content
  first_lf := by decide
  field_lf := by
    have htype : 10 ∉ ascii "Content-Type: " ++ requestGetFiletype filename := by
      rw [List.mem_append,not_or]
      exact ⟨by decide,requestGetFiletype_lf filename⟩
    simp only [List.forall_mem_cons]
    exact ⟨by decide,lengthField_lf _,htype,by simp⟩
  field_ne := by simp [ascii]

theorem staticMessage_bytes (filename content : List UInt8) :
    (staticMessage filename content).bytes =
      staticHeader content.length (requestGetFiletype filename) ++ content := by
  have hlen : toString (content.length : Int) = toString content.length := rfl
  have hfirst : ascii "HTTP/1.0 200 OK\r\nServer: OSTEP WebServer\r\nContent-Length: " =
      ascii "HTTP/1.0 200 OK" ++ lineEnd ++ ascii "Server: OSTEP WebServer" ++ lineEnd ++
        ascii "Content-Length: " := by decide
  have htype : ascii "\r\nContent-Type: " = lineEnd ++ ascii "Content-Type: " := by decide
  have hend : ascii "\r\n\r\n" = lineEnd ++ lineEnd := by decide
  simp [staticMessage,Message.bytes,Message.head,staticHeader,hlen,hfirst,htype,hend]

def ErrorPage.message (p : ErrorPage) (he : 10 ∉ p.errnum) (hs : 10 ∉ p.shortmsg) : Message where
  first := ascii "HTTP/1.0 " ++ p.errnum ++ ascii " " ++ p.shortmsg
  fields := [ascii "Content-Type: " ++ ascii "text/html",
    ascii "Content-Length: " ++ ascii (toString p.body.length)]
  body := p.body
  first_lf := by
    simp only [List.mem_append,not_or]
    exact ⟨⟨⟨by decide,he⟩,by decide⟩,hs⟩
  field_lf := by
    simp only [List.forall_mem_cons]
    exact ⟨by decide,lengthField_lf _,by simp⟩
  field_ne := by simp [ascii]

theorem ErrorPage.message_bytes (p : ErrorPage) (he : 10 ∉ p.errnum) (hs : 10 ∉ p.shortmsg) :
    (p.message he hs).bytes = p.bytes := by
  have htype : ascii "Content-Type: text/html\r\n" =
      ascii "Content-Type: " ++ ascii "text/html" ++ lineEnd := by decide
  have hline : ascii "\r\n" = lineEnd := by decide
  have hend : ascii "\r\n\r\n" = lineEnd ++ lineEnd := by decide
  simp [ErrorPage.message,ErrorPage.bytes,ErrorPage.chunks,Message.bytes,Message.head,htype,hline,
    hend]

end Heads

section Decoding

theorem staticMessage_decodes (filename content : List UInt8) :
    DecodesTo (staticMessage filename content).bytes content := by
  refine ⟨_,ascii (toString content.length),splitHead_bytes _,?_,decimal_digits _⟩
  have hfirst : fieldValue contentLength (ascii "HTTP/1.0 200 OK") = none := by decide
  have hserver : fieldValue contentLength (ascii "Server: OSTEP WebServer") = none := by decide
  rw [headLines_head,staticMessage,List.filterMap_cons_none hfirst,
    List.filterMap_cons_none hserver,List.filterMap_cons_some (lengthField_value _),
    List.filterMap_cons_none (typeField_value _)]
  rfl

theorem ErrorPage.message_decodes (p : ErrorPage) (he : 10 ∉ p.errnum) (hs : 10 ∉ p.shortmsg) :
    DecodesTo (p.message he hs).bytes p.body := by
  refine ⟨_,ascii (toString p.body.length),splitHead_bytes _,?_,decimal_digits _⟩
  have hfirst : fieldValue contentLength
      (ascii "HTTP/1.0 " ++ p.errnum ++ ascii " " ++ p.shortmsg) = none :=
    fieldValue_first (by decide) (by decide)
  rw [headLines_head,ErrorPage.message,List.filterMap_cons_none hfirst,
    List.filterMap_cons_none (typeField_value _),List.filterMap_cons_some (lengthField_value _)]
  rfl

theorem static_decodes {fs : FileSystem} {filename content : List UInt8} {conn : Conn}
    (hf : fs.contents filename = some content) (hne : content ≠ [])
    (h : NoneShort conn.outcomes
      [staticHeader content.length (requestGetFiletype filename),content]) :
    ∃ conn' reply, requestServeStatic fs filename content.length conn = .done conn' ∧
      conn'.sent = conn.sent ++ reply ∧ DecodesTo reply content := by
  have hpos : 0 < (content.length : Int) := by
    have := List.length_pos_iff.mpr hne
    omega
  have hmap : mapped content (content.length : Int).toNat = content := by
    simp [mapped]
  have hend : (conn.outcomes.get 1).reach (content.length : Int).toNat ≤ pageEnd content.length :=
    (Accepted.reach_le _ _).trans (by rw [Int.toNat_natCast]; exact Nat.le_add_right _ _)
  have hdone := requestServeStatic_done hf hne hpos hend
  rw [hmap,writeAll_noneShort h] at hdone
  have hdecodes := staticMessage_decodes filename content
  rw [staticMessage_bytes] at hdecodes
  exact ⟨_,_,hdone,rfl,by simpa using hdecodes⟩

theorem page_decodes {p : ErrorPage} {conn : Conn} (he : 10 ∉ p.errnum) (hs : 10 ∉ p.shortmsg)
    (h : NoneShort conn.outcomes p.chunks) :
    ∃ conn' reply, requestError conn p.cause p.errnum p.shortmsg p.longmsg = .done conn' ∧
      conn'.sent = conn.sent ++ reply ∧ DecodesTo reply p.body := by
  have hdone := requestError_eq conn p
  rw [writeAll_noneShort h] at hdone
  have hdecodes := p.message_decodes he hs
  rw [p.message_bytes he hs] at hdecodes
  exact ⟨_,p.bytes,hdone,rfl,hdecodes⟩

theorem pages_lf (cause : List UInt8) :
    ∀ p ∈ [notImplemented cause,notFound cause,unreadable cause,unrunnable cause],
      10 ∉ p.errnum ∧ 10 ∉ p.shortmsg := by
  have hstatus : ∀ status : List UInt8 × List UInt8,
      status ∈ [(ascii "501",ascii "Not Implemented"),(ascii "404",ascii "Not found"),
        (ascii "403",ascii "Forbidden")] → 10 ∉ status.1 ∧ 10 ∉ status.2 := by decide
  intro p hp
  refine hstatus (p.errnum,p.shortmsg) ?_
  simp only [List.mem_cons,List.not_mem_nil,or_false] at hp
  rcases hp with rfl | rfl | rfl | rfl <;> simp [notImplemented,notFound,unreadable,unrunnable]

theorem errorBody_cause (errnum shortmsg longmsg : List UInt8) : ∃ above below, ∀ cause,
    errorBody cause errnum shortmsg longmsg = above ++ cause ++ below :=
  ⟨_,ascii "</p>\r\n</body>\r\n</html>\r\n",fun _ => rfl⟩

/-- Replies decode to what was sent, when no write is short. The status line of
an error page has to be one line, as all those of request.c are. -/
theorem replies_decode (conn : Conn) :
    (∀ fs filename content, fs.contents filename = some content → content ≠ [] →
      content.length < 2^31 →
      NoneShort conn.outcomes
        [staticHeader content.length (requestGetFiletype filename),content] →
      ∃ conn' reply, requestServeStatic fs filename content.length conn = .done conn' ∧
        conn'.sent = conn.sent ++ reply ∧ DecodesTo reply content) ∧
    (∀ p : ErrorPage, 10 ∉ p.errnum → 10 ∉ p.shortmsg → NoneShort conn.outcomes p.chunks →
      (∃ conn' reply, requestError conn p.cause p.errnum p.shortmsg p.longmsg = .done conn' ∧
        conn'.sent = conn.sent ++ reply ∧ DecodesTo reply p.body) ∧
      ∃ above below, ∀ cause, ({ p with cause := cause } : ErrorPage).body =
        above ++ cause ++ below) ∧
    ∀ cause, ∀ p ∈ [notImplemented cause,notFound cause,unreadable cause,unrunnable cause],
      10 ∉ p.errnum ∧ 10 ∉ p.shortmsg := by
  refine ⟨fun _ _ _ hf hne _ h => static_decodes hf hne h,fun p he hs h => ?_,pages_lf⟩
  exact ⟨page_decodes he hs h,errorBody_cause p.errnum p.shortmsg p.longmsg⟩

theorem replies_decode_blank_lines : ∃ conn' reply,
    requestServeStatic (seenBy visitor (fun _ _ => none) (fileOf [13,10,13,10])) (ascii "./a") 4
      (client []) = .done conn' ∧ conn'.sent = [] ++ reply ∧ DecodesTo reply [13,10,13,10] :=
  (replies_decode (client [])).1 _ _ [13,10,13,10] rfl (by simp) (by decide)
    ⟨trivial,trivial,trivial⟩

end Decoding

end ConcurrentWebServer.Requests
