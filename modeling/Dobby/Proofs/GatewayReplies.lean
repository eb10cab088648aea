import Dobby.Base.Http
import Dobby.Model.GatewayRoutes
import Dobby.Proofs.CjsonRoundTrip
import Dobby.Proofs.GatewayRequest

namespace Dobby.Gateway
open CString Cjson JsonText
open Http (Response readResponse Inline Named)

/-- The response that a reply is to be. -/
def Reply.response (r : Reply) : Response :=
  ⟨r.code, reason r.code, [("Content-Type".toList, r.ctype),
    ("Content-Length".toList, printSize r.body.length),
    ("Access-Control-Allow-Origin".toList, "*".toList), ("Connection".toList, "close".toList)],
    r.body⟩

/-- A reply that the header buffer and the lines of the header take. -/
structure Fits (r : Reply) : Prop where
  code_low : 100 ≤ r.code
  code_high : r.code < 1000
  ctype : Inline r.ctype
  ctype_short : r.ctype.length ≤ 24

theorem header_text (r : Reply) : header r ++ r.body = r.response.text := by
  have hcrlf : "\r\n".toList = Crlf.crlf := rfl
  have htype : "Content-Type: ".toList = "Content-Type".toList ++ [':', ' '] := rfl
  have hlength : "Content-Length: ".toList = "Content-Length".toList ++ [':', ' '] := rfl
  have horigin : "Access-Control-Allow-Origin: *\r\n".toList =
      "Access-Control-Allow-Origin".toList ++ [':', ' '] ++ "*".toList ++ Crlf.crlf := rfl
  have hclose : "Connection: close\r\n".toList =
      "Connection".toList ++ [':', ' '] ++ "close".toList ++ Crlf.crlf := rfl
  have hblank : " ".toList = [' '] := rfl
  unfold header Response.text Response.start Reply.response
  rw [hcrlf, htype, hlength, horigin, hclose, hblank]
  simp only [List.map_cons, List.map_nil, Crlf.text_cons, Crlf.text_nil]
  unfold Http.fieldLine
  simp only [List.append_assoc, List.cons_append, List.nil_append, List.append_nil]

theorem reason_shape (code : Nat) : Inline (reason code) ∧ (reason code).length ≤ 21 := by
  have hall : ∀ s ∈ ["OK".toList, "Bad Request".toList, "Not Found".toList,
      "Service Unavailable".toList, "Internal Server Error".toList],
      ('\r' ∉ s ∧ '\n' ∉ s) ∧ s.length ≤ 21 := by
    decide
  have hmem : reason code ∈ ["OK".toList, "Bad Request".toList, "Not Found".toList,
      "Service Unavailable".toList, "Internal Server Error".toList] := by
    unfold reason
    generalize "OK".toList = a, "Bad Request".toList = b, "Not Found".toList = c,
      "Service Unavailable".toList = d, "Internal Server Error".toList = e
    split
    · simp
    split
    · simp
    split
    · simp
    split <;> simp
  obtain ⟨⟨hcr, hlf⟩, hlen⟩ := hall _ hmem
  exact ⟨⟨hcr, hlf⟩, hlen⟩

theorem header_length {r : Reply} (h : Fits r) : (header r).length < 256 := by
  have hreason := (reason_shape r.code).2
  have hcode := Http.length_three h.code_low h.code_high
  have htype := h.ctype_short
  have hsize : (printSize r.body.length).length ≤ 20 :=
    (Nat.length_toDigits_le_iff (by decide) (by decide)).mpr
      (Nat.lt_of_lt_of_le (Nat.mod_lt _ (by decide)) (by decide))
  have hfixed : ["HTTP/1.1 ".toList.length, " ".toList.length, "\r\n".toList.length,
      "Content-Type: ".toList.length, "Content-Length: ".toList.length,
      "Access-Control-Allow-Origin: *\r\n".toList.length,
      "Connection: close\r\n".toList.length] = [9, 1, 2, 14, 16, 32, 19] := by
    decide
  simp only [List.cons.injEq, and_true] at hfixed
  obtain ⟨h1, h2, h3, h4, h5, h6, h7⟩ := hfixed
  unfold header
  simp only [List.length_append, h1, h2, h3, h4, h5, h6, h7, hcode]
  omega

theorem response_length (r : Reply) (hsize : r.body.length < 2 ^ 64) :
    Http.contentLength r.response.fields = some r.body.length := by
  have hmod : r.body.length % 2 ^ 64 = r.body.length := Nat.mod_eq_of_lt hsize
  have htype : strcaseEq "Content-Type".toList Http.lengthName = false := by decide
  have hlength : strcaseEq "Content-Length".toList Http.lengthName = true := by decide
  have horigin : strcaseEq "Access-Control-Allow-Origin".toList Http.lengthName = false := by decide
  have hclose : strcaseEq "Connection".toList Http.lengthName = false := by decide
  have hfilter : r.response.fields.filter (fun f => strcaseEq f.1 Http.lengthName) =
      [("Content-Length".toList, printSize r.body.length)] := by
    rw [Reply.response, List.filter_cons_of_neg (by rw [htype]; exact Bool.false_ne_true),
      List.filter_cons_of_pos (p := fun f : Str × Str => strcaseEq f.1 Http.lengthName) hlength,
      List.filter_cons_of_neg (by rw [horigin]; exact Bool.false_ne_true),
      List.filter_cons_of_neg (by rw [hclose]; exact Bool.false_ne_true), List.filter_nil]
  have hdigits : printSize r.body.length ≠ [] ∧ (printSize r.body.length).all Char.isDigit = true :=
    ⟨Nat.toDigits_ne_nil, Http.digits_all _⟩
  rw [Http.contentLength, hfilter]
  dsimp only
  rw [if_pos hdigits, printSize, Nat.ofDigitChars_ten_toDigits, hmod]

theorem response_framed {r : Reply} (h : Fits r) (hsize : r.body.length < 2 ^ 64) :
    r.response.Framed := by
  have hnames : ∀ name ∈ ["Content-Type".toList, "Content-Length".toList,
      "Access-Control-Allow-Origin".toList, "Connection".toList],
      ('\r' ∉ name ∧ '\n' ∉ name) ∧ name ≠ [] ∧ ':' ∉ name := by
    decide
  have hstar : '\r' ∉ "*".toList ∧ '\n' ∉ "*".toList := by decide
  have hclose : '\r' ∉ "close".toList ∧ '\n' ∉ "close".toList := by decide
  have hsizes : ∀ c ∈ printSize r.body.length, c.isDigit = true :=
    fun c hc => Nat.isDigit_of_mem_toDigits (by decide) (by decide) hc
  refine ⟨h.code_low, h.code_high, (reason_shape r.code).1, ?_, response_length r hsize⟩
  have hvalues : ∀ f ∈ r.response.fields, Inline f.2 := by
    simp only [Reply.response, List.forall_mem_cons]
    exact ⟨h.ctype, ⟨fun hc => absurd (hsizes _ hc) (by decide),
      fun hc => absurd (hsizes _ hc) (by decide)⟩, ⟨hstar.1, hstar.2⟩, ⟨hclose.1, hclose.2⟩,
      fun _ h => absurd h List.not_mem_nil⟩
  intro f hf
  refine ⟨?_, hvalues f hf⟩
  obtain ⟨⟨hcr, hlf⟩, hne, hcolon⟩ := hnames f.1 (List.mem_map_of_mem (f := Prod.fst) hf)
  exact ⟨⟨hcr, hlf⟩, hne, hcolon⟩

/-- What is sent is one response, and a client reads it as it is meant. -/
theorem sent_reply {r : Reply} (h : Fits r) (hsize : r.body.length < 2 ^ 64) :
    ∃ bytes, sendResponse r = some bytes ∧
      ∀ more, readResponse (bytes ++ more) = some (r.response, more) := by
  refine ⟨header r ++ r.body, if_pos (header_length h), fun more => ?_⟩
  rw [header_text]
  exact Http.readResponse_text (response_framed h hsize) more

/-- The reply arrives as one response, and as JSON if it says so. -/
structure Answers (r : Reply) : Prop where
  sent : r.body.length < 2 ^ 64 → ∃ bytes, sendResponse r = some bytes ∧
    ∀ more, readResponse (bytes ++ more) = some (r.response, more)
  json : r.ctype = "application/json".toList → (cJSONParse r.body).isSome = true

theorem json_fits {code : Nat} (hlow : 100 ≤ code) (hhigh : code < 1000) (json : Str) :
    Fits (sendJson code json) := by
  have htype : ('\r' ∉ "application/json".toList ∧ '\n' ∉ "application/json".toList) ∧
      "application/json".toList.length ≤ 24 := by decide
  exact ⟨hlow, hhigh, ⟨htype.1.1, htype.1.2⟩, htype.2⟩

theorem answers_json {code : Nat} (hlow : 100 ≤ code) (hhigh : code < 1000) {json : Str}
    (h : (cJSONParse json).isSome = true) : Answers (sendJson code json) :=
  ⟨sent_reply (json_fits hlow hhigh json), fun _ => h⟩

/-- The texts that the handlers have ready. -/
theorem ready_texts : ∀ json ∈ ["\x7b\"error\":\"Bus not initialised\"\x7d".toList,
    "\x7b\"error\":\"Empty request body\"\x7d".toList,
    "\x7b\"error\":\"Invalid JSON\"\x7d".toList,
    "\x7b\"error\":\"'message' field required\"\x7d".toList, "\x7b\x7d".toList,
    "\x7b\"error\":\"POST required\"\x7d".toList, "\x7b\"error\":\"Not found\"\x7d".toList],
    (cJSONParse json).isSome = true := by
  decide +kernel

theorem answers_root (sv : Services) : Answers (handleRoot sv) := by
  have htype : ('\r' ∉ "text/html; charset=utf-8".toList ∧
      '\n' ∉ "text/html; charset=utf-8".toList) ∧ "text/html; charset=utf-8".toList.length ≤ 24 ∧
      "text/html; charset=utf-8".toList ≠ "application/json".toList := by decide
  have hfits : Fits (handleRoot sv) :=
    ⟨(by decide : 100 ≤ 200), (by decide : 200 < 1000), ⟨htype.1.1, htype.1.2⟩, htype.2.1⟩
  exact ⟨sent_reply hfits, fun h => absurd h htype.2.2⟩

theorem answers_favicon : Answers ⟨204, "image/x-icon".toList, []⟩ := by
  have hfits : Fits ⟨204, "image/x-icon".toList, []⟩ :=
    ⟨by decide, by decide, ⟨by decide, by decide⟩, by decide⟩
  exact ⟨sent_reply hfits, fun h => absurd h (by decide)⟩

section

variable (doubles : Doubles)

theorem obj_parses {obj : Json} (h : Nested nestingLimit obj) (code : Nat) :
    cJSONParse (sendJsonObj doubles code obj).body = some (normal doubles obj) :=
  print_parse doubles false h

theorem answers_obj {obj : Json} (h : Nested nestingLimit obj) :
    Answers (sendJsonObj doubles 200 obj) := by
  refine answers_json (by decide) (by decide) ?_
  rw [cJSONPrintUnformatted, print_parse doubles false h]
  rfl

/-- A list of objects without further nesting. -/
theorem nested_items {β : Type} (xs : List β) {item : β → Json} (h : ∀ x ∈ xs, Nested 1 (item x)) :
    Nested nestingLimit (.array (xs.map item)) := by
  have hlist : Nested 2 (.array (xs.map item)) := List.forall_mem_map.mpr h
  exact Nested.mono (by decide) hlist

theorem task_nested (t : Schedule.Task) : Nested 1 (taskItem t) := by
  simp only [taskItem, Nested, List.forall_mem_cons]
  exact ⟨trivial, trivial, trivial, trivial, trivial, trivial, fun _ h => absurd h List.not_mem_nil⟩

theorem tmux_nested (line : Str) : Nested 1 (tmuxItem line) := by
  simp only [tmuxItem, Nested, List.forall_mem_cons]
  exact ⟨trivial, trivial, trivial, fun _ h => absurd h List.not_mem_nil⟩

theorem subagent_nested (clock : Int) (sl : Subagent.Slot) : Nested 1 (subagentItem clock sl) := by
  rw [subagentItem, Nested, List.forall_mem_append]
  constructor
  · simp only [List.forall_mem_cons]
    exact ⟨trivial, trivial, trivial, trivial, trivial, fun _ h => absurd h List.not_mem_nil⟩
  · split
    · split
      · exact fun _ h => absurd h List.not_mem_nil
      · exact List.forall_mem_singleton.mpr trivial
    · exact fun _ h => absurd h List.not_mem_nil

theorem status_nested (sv : Services) : Nested nestingLimit (statusTree sv) := by
  have hflat : Nested 1 (statusTree sv) := by
    simp only [statusTree, Nested, List.forall_mem_cons]
    exact ⟨trivial, trivial, trivial, trivial, trivial, trivial, fun _ h => absurd h List.not_mem_nil⟩
  exact Nested.mono (by decide) hflat

theorem email_nested (sv : Services) : Nested nestingLimit (emailTree sv) := by
  have hlow : Nested 2 (emailTree sv) := by
    rw [emailTree, Nested, List.forall_mem_append]
    constructor
    · split
      · exact List.forall_mem_singleton.mpr trivial
      · simp only [List.forall_mem_cons]
        exact ⟨trivial, trivial, trivial, trivial, fun _ h => absurd h List.not_mem_nil⟩
    · simp only [List.forall_mem_cons]
      exact ⟨List.forall_mem_map.mpr fun _ _ => trivial, trivial,
        fun _ h => absurd h List.not_mem_nil⟩
  exact Nested.mono (by decide) hlow

theorem answers_chat (response : Option Str) : Answers (chatReply doubles response) := by
  have hflat : Nested 1 (.object [("response".toList, .string (response.getD []))]) :=
    List.forall_mem_singleton.mpr trivial
  exact answers_obj doubles (Nested.mono (by decide) hflat)

/-- What the thread does with a request is settled. -/
def Settled : Action → Prop
  | .reply r => Answers r
  | .publish msg => msg ≠ [] ∧ ∀ response, Answers (chatReply doubles response)

theorem chat_settled (sv : Services) (raw : Str) : Settled doubles (handleChat sv raw) := by
  have hready := ready_texts
  simp only [List.forall_mem_cons] at hready
  obtain ⟨hbus, hempty, hinvalid, hfield, -⟩ := hready
  unfold handleChat
  split
  · exact answers_json (by decide) (by decide) hbus
  split
  · exact answers_json (by decide) (by decide) hempty
  · exact answers_json (by decide) (by decide) hempty
  split
  · exact answers_json (by decide) (by decide) hinvalid
  split
  · exact answers_json (by decide) (by decide) hfield
  · exact answers_json (by decide) (by decide) hfield
  · rename_i msg hne _
    exact ⟨fun h => hne h, answers_chat doubles⟩

/-- Whatever a request is, its answer is one response that a client can read: at once, or
when the response to its message is there. -/
theorem every_request_answered (sv : Services) (raw : Str) :
    Settled doubles (gatewayConnThread doubles sv raw) := by
  have hready := ready_texts
  simp only [List.forall_mem_cons] at hready
  obtain ⟨-, -, -, -, hoptions, hpost, hmissing, -⟩ := hready
  unfold gatewayConnThread
  dsimp only
  split
  · exact answers_root sv
  split
  · exact answers_obj doubles (status_nested sv)
  split
  · split
    · exact chat_settled doubles sv raw
    split
    · exact answers_json (by decide) (by decide) hoptions
    · exact answers_json (by decide) (by decide) hpost
  split
  · exact answers_obj doubles (nested_items _ fun t _ => task_nested t)
  split
  · exact answers_obj doubles (nested_items _ fun sl _ => subagent_nested sv.clock sl)
  split
  · exact answers_obj doubles (nested_items _ fun line _ => tmux_nested (dropNewline line))
  split
  · exact answers_obj doubles (email_nested sv)
  split
  · exact answers_favicon
  · exact answers_json (by decide) (by decide) hmissing

end

theorem scanWord_word (width : Nat) {word : Str} (hword : ∀ c ∈ word, isSpace c = false)
    (hne : word ≠ []) {c : Char} (hc : isSpace c = true) (rest : Str) :
    (scanWord width (word ++ c :: rest)).1 = word.take width ∧
      (word.length ≤ width → (scanWord width (word ++ c :: rest)).2 = c :: rest) := by
  have hdrop : (word ++ c :: rest).dropWhile isSpace = word ++ c :: rest := by
    obtain ⟨d, ds, rfl⟩ := List.exists_cons_of_ne_nil hne
    exact List.dropWhile_cons_of_neg (by rw [hword d List.mem_cons_self]; exact Bool.false_ne_true)
  have htake : (word ++ c :: rest).takeWhile (!isSpace ·) = word := by
    rw [List.takeWhile_append_of_pos (fun d hd => by rw [hword d hd]; rfl),
      List.takeWhile_cons_of_neg (by rw [hc]; exact Bool.false_ne_true), List.append_nil]
  simp only [scanWord, hdrop, htake, true_and]
  intro hlen
  rw [List.take_of_length_le hlen, List.drop_left]

theorem scanWord_blank (width : Nat) (s : Str) : (scanWord width (' ' :: s)).1 = (scanWord width s).1 := by
  have hdrop : (' ' :: s).dropWhile isSpace = s.dropWhile isSpace :=
    List.dropWhile_cons_of_pos (by decide)
  simp only [scanWord, hdrop]

/-- A request line for a chat, perhaps with a query. -/
structure ChatLine (start : Str) : Prop where
  shape : ∃ query version, start = "POST ".toList ++ ("/api/chat".toList ++ query ++ ' ' :: version) ∧
    (∀ c ∈ query, isSpace c = false) ∧ query.takeWhile (· ≠ '?') = []

theorem takeWhile_take {query : Str} (h : query.takeWhile (· ≠ '?') = []) (n : Nat) :
    (query.take n).takeWhile (· ≠ '?') = [] := by
  cases query with
  | nil => rw [List.take_nil, List.takeWhile_nil]
  | cons c cs =>
    cases n with
    | zero => rfl
    | succ n =>
      have hc : c = '?' := by
        by_contra hc
        simp [hc] at h
      rw [List.take_succ_cons, hc]
      rfl

theorem requestLine_chat {start : Str} (h : ChatLine start) (rest : Str) :
    requestLine (start ++ rest) = ("POST".toList, "/api/chat".toList) := by
  obtain ⟨query, version, rfl, hquery, hmark⟩ := h.shape
  have hword : ∀ c ∈ "POST".toList, isSpace c = false := by simp [isSpace]
  have hchat : ∀ c ∈ "/api/chat".toList, isSpace c = false := by simp [isSpace]
  have hplain : ∀ c ∈ "/api/chat".toList, decide (c ≠ '?') = true := by simp
  have hpost := scanWord_word 15 hword (by decide) (c := ' ') (by decide)
    ("/api/chat".toList ++ query ++ ' ' :: (version ++ rest))
  have htarget : ∀ c ∈ "/api/chat".toList ++ query, isSpace c = false :=
    fun c hc => (List.mem_append.mp hc).elim (hchat c) (hquery c)
  have hpath := scanWord_word 255 htarget (List.append_ne_nil_of_left_ne_nil (by decide) _) (c := ' ')
    (by decide) (version ++ rest)
  have hraw : "POST ".toList ++ ("/api/chat".toList ++ query ++ ' ' :: version) ++ rest =
      "POST".toList ++ ' ' :: ("/api/chat".toList ++ query ++ ' ' :: (version ++ rest)) := by
    have hfront : "POST ".toList = "POST".toList ++ [' '] := rfl
    rw [hfront]
    simp only [List.append_assoc, List.cons_append, List.nil_append]
  have hcut : (("/api/chat".toList ++ query).take 255).takeWhile (· ≠ '?') = "/api/chat".toList := by
    rw [List.take_append, List.take_of_length_le (by decide),
      List.takeWhile_append_of_pos hplain, takeWhile_take hmark, List.append_nil]
  rw [hraw, requestLine, hpost.1, hpost.2 (by decide), scanWord_blank, hpath.1, hcut]
  rfl

theorem requestBody_bytes (r : Request) : requestBody r.bytes = some r.body := by
  have hfound := strstr_grow r.head_ends r.body
  rw [requestBody, Request.bytes, hfound]
  rfl

theorem bytes_start (r : Request) : ∃ rest, r.bytes = r.start ++ rest := by
  refine ⟨Crlf.crlf ++ Crlf.text r.fields ++ Crlf.crlf ++ r.body, ?_⟩
  rw [Request.bytes, Request.head, Crlf.text_cons]
  simp only [List.append_assoc]

theorem document_parses {text : Str} {j : Json} (hnul : '\x00' ∉ text)
    (h : Document rfc nestingLimit text j) : cJSONParse text = some j := by
  have htext := cstr_eq_self hnul
  exact cJSONParse_document (htext.trans (List.append_nil _).symm) (Stops.nil _) (rfc_document h)

/-- The thread of a chat puts the message on the bus. -/
theorem chat_published (doubles : Doubles) {sv : Services} (hbus : sv.busReady = true) {r : Request}
    (hline : ChatLine r.start) {req : Json} (hbody : cJSONParse r.body = some req) {msg : Str}
    (hmsg : req.field "message".toList = some msg) (hsome : msg ≠ []) :
    gatewayConnThread doubles sv r.bytes = .publish msg := by
  obtain ⟨rest, hrest⟩ := bytes_start r
  have hreq : requestLine r.bytes = ("POST".toList, "/api/chat".toList) := by
    rw [hrest]
    exact requestLine_chat hline rest
  have hchat : handleChat sv r.bytes = .publish msg := by
    obtain ⟨m, ms, rfl⟩ := List.exists_cons_of_ne_nil hsome
    unfold handleChat
    rw [if_neg (by simp [hbus]), requestBody_bytes]
    cases hbytes : r.body with
    | nil =>
      rw [hbytes] at hbody
      have hnone : cJSONParse [] = none := by decide +kernel
      cases hnone.symm.trans hbody
    | cons c cs =>
      rw [hbytes] at hbody
      simp only [hbody, hmsg]
  unfold gatewayConnThread
  rw [hreq]
  dsimp only
  rw [if_neg (by decide), if_neg (by decide), if_pos rfl, if_pos rfl, hchat]

/-- A chat request with a JSON body, in whatever pieces it comes, puts its message on the
bus, and the response that comes back is what the client reads. -/
theorem chat_round_trip (doubles : Doubles) (heap : Heap) (sv : Services) (r : Request)
    (closed : Bool) {chunks : List Str} (hne : ∀ chunk ∈ chunks, chunk ≠ [])
    (hsplit : chunks.flatten = r.bytes)
    (hcalm : ∀ total ∈ totals 0 chunks, Undisturbed heap r.head r.body closed total)
    (hbus : sv.busReady = true) (hline : ChatLine r.start) {req : Json}
    (hbody : Document rfc nestingLimit r.body req) {msg : Str}
    (hmsg : req.field "message".toList = some msg) (hsome : msg ≠ []) {response : Str}
    (hclean : '\x00' ∉ response)
    (hsize : (chatReply doubles (some response)).body.length < 2 ^ 64) :
    ∃ raw bytes p, readRequest heap (chunks ++ closing closed) = (.returned raw, false) ∧
      gatewayConnThread doubles sv raw = .publish msg ∧
      sendResponse (chatReply doubles (some response)) = some bytes ∧
      readResponse bytes = some (p, []) ∧ p.code = 200 ∧
      cJSONParse p.body = some (.object [("response".toList, .string response)]) := by
  have hchunks : chunks ≠ [] := by
    rintro rfl
    have hends := r.head_ends
    rw [(List.append_eq_nil_iff.mp hsplit.symm).1] at hends
    cases hends
  have hgot : [] ++ chunks.flatten = r.head ++ r.body := hsplit
  have hread := (readLoop_iff r.head_ends r.bytes_string r.small hne hchunks hgot).mpr hcalm
  have hparse := document_parses r.string hbody
  obtain ⟨bytes, hbytes, hreadback⟩ := (answers_chat doubles (some response)).sent hsize
  have hplain : Cjson.Plain (.object [("response".toList, .string response)]) :=
    .object (List.forall_mem_singleton.mpr (by decide : '\x00' ∉ "response".toList))
      (List.forall_mem_singleton.mpr (.string hclean))
  have hflat : Nested 1 (.object [("response".toList, .string response)]) :=
    List.forall_mem_singleton.mpr trivial
  have hback := obj_parses doubles (Nested.mono (by decide : 1 ≤ nestingLimit) hflat) 200
  rw [normal_plain doubles hplain] at hback
  have hone := hreadback []
  rw [List.append_nil] at hone
  exact ⟨r.bytes, bytes, _, hread, chat_published doubles hbus hline hparse hmsg hsome, hbytes, hone,
    rfl, hback⟩

def sampleServices : Services :=
  ⟨true, 0, 0, false, [], fun _ => none, none, none, 0, none, none, none⟩

theorem sampleBody_document : Document rfc nestingLimit sampleBody
    (.object [("message".toList, .string "hi".toList)]) := by
  have hclean : '\x00' ∉ "message".toList ∧ '\x00' ∉ "hi".toList := by decide
  have hplain : Cjson.Plain (.object [("message".toList, .string "hi".toList)]) :=
    .object (List.forall_mem_singleton.mpr hclean.1)
      (List.forall_mem_singleton.mpr (.string hclean.2))
  have hflat : Nested 1 (.object [("message".toList, .string "hi".toList)]) :=
    List.forall_mem_singleton.mpr trivial
  have hden := printValue_denotes noDoubles false (Nested.mono (by decide : 1 ≤ nestingLimit) hflat) 0
  rw [normal_plain noDoubles hplain] at hden
  have htext : [] ++ printValue noDoubles false 0
      (.object [("message".toList, .string "hi".toList)]) ++ [] = sampleBody := rfl
  exact htext ▸ .mk blank_nil hden blank_nil

theorem chat_round_trip_hi : ∃ raw bytes p,
    readRequest pageHeap [sampleChat.bytes, []] = (.returned raw, false) ∧
      gatewayConnThread noDoubles sampleServices raw = .publish "hi".toList ∧
      sendResponse (chatReply noDoubles (some "ok".toList)) = some bytes ∧
      readResponse bytes = some (p, []) ∧ p.code = 200 ∧
      cJSONParse p.body = some (.object [("response".toList, .string "ok".toList)]) := by
  have hone : ∀ chunk ∈ [sampleChat.bytes], chunk ≠ [] := by decide
  have hcalm : ∀ total ∈ totals 0 [sampleChat.bytes],
      Undisturbed pageHeap sampleChat.head sampleChat.body true total := by
    refine List.forall_mem_singleton.mpr ⟨fun h => absurd h (by decide),
      fun _ h => absurd h (by decide), fun _ => .inl rfl⟩
  have hline : ChatLine sampleChat.start :=
    ⟨[], "HTTP/1.1".toList, rfl, fun _ h => absurd h List.not_mem_nil, rfl⟩
  have hmsg : (Json.object [("message".toList, .string "hi".toList)]).field "message".toList =
      some "hi".toList := rfl
  have hsize : (chatReply noDoubles (some "ok".toList)).body.length < 2 ^ 64 := by
    change (17 : Nat) < 2 ^ 64
    decide
  exact chat_round_trip noDoubles pageHeap sampleServices sampleChat true hone rfl hcalm rfl hline
    sampleBody_document hmsg (by decide) (by decide) hsize

end Dobby.Gateway
