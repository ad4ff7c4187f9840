/-
What `sync_http_full` accepts as a response, and that it prints all of it.

A response is printed if it begins with a status line: a word that begins with `HTTP/`, white
space, a number that fits, and the rest of a line (`StatusLine`).  There is no other way to get
past `Invalid response`.

Of an accepted response everything behind the status line is printed as it came, except for
one carriage return: that of the empty line behind the headers (`Page`).  The induction is on
the headers, each of which the loop reads and prints as one line.
-/
import Technopark.Net.HttpResponse

namespace Technopark.Http

open Istream

/-! ### The format -/

/-- The response begins with a status line. -/
def StatusLine (response : Bytes) (code : Nat) (rest : Bytes) : Prop :=
  ∃ ws version ws' field tail message,
    response = ws ++ (version ++ (ws' ++ (field ++ tail))) ∧
    Blank ws ∧ Word version ∧ text "HTTP/" <+: version ∧
    ws' ≠ [] ∧ Blank ws' ∧ Number field code ∧ (∀ c ∈ tail.head?, ¬ isDigit c) ∧
    Line tail message rest

/-- A line that is not the empty one behind the headers. -/
def Header (line : Bytes) : Prop := 10 ∉ line ∧ line ≠ text "\r"

/-- Lines, each with its end. -/
def joined (lines : List Bytes) : Bytes := lines.flatMap (· ++ [10])

/-- What comes behind the complete headers, and what is printed of it. -/
inductive Ending : Bytes → Bytes → Prop
  | blank (body : Bytes) : Ending (text "\r" ++ 10 :: body) (10 :: body)
  | cut : Ending (text "\r") [10]
  | missing : Ending [] [10]
  | unfinished {line : Bytes} (h : Header line) (hne : line ≠ []) : Ending line (line ++ [10, 10])

/-- What is printed of what comes behind the status line. -/
def Page (rest out : Bytes) : Prop :=
  ∃ lines tail printed, (∀ line ∈ lines, Header line) ∧ Ending tail printed ∧
    rest = joined lines ++ tail ∧ out = joined lines ++ printed

/-- A response with a status of 200. -/
def render (version reason : Bytes) (headers : List Bytes) (body : Bytes) : Bytes :=
  version ++ text " 200 " ++ reason ++ crlf ++ joined (headers.map (· ++ text "\r")) ++ crlf ++ body

/-! ### The headers -/

theorem printHeaders_succ (fuel : Nat) (header : Bytes) (s : Istream) :
    printHeaders (fuel + 1) header s
      = if (s.getline header).2.fail = false ∧ (s.getline header).1 ≠ text "\r" then
          printHeaders fuel (s.getline header).1 (s.getline header).2 >>= fun p =>
            .ok ((s.getline header).1 ++ 10 :: p.1, p.2)
        else .ok ([], (s.getline header).2) := rfl

/-- A header is printed as it is. -/
theorem printHeaders_header {line : Bytes} (h : Header line) (header : Bytes) (fuel : Nat)
    (rest : Bytes) :
    printHeaders (fuel + 1) header { rest := line ++ 10 :: rest }
      = printHeaders fuel line { rest := rest } >>= fun p => .ok (line ++ 10 :: p.1, p.2) := by
  rw [printHeaders_succ, getline_ended header h.1, if_pos ⟨rfl, h.2⟩]

/-- The loop ends at an empty line. -/
theorem printHeaders_blank {str rest : Bytes} (h : Line str (text "\r") rest) (header : Bytes)
    (fuel : Nat) :
    ∃ t : Istream, printHeaders (fuel + 1) header { rest := str } = .ok ([], t) ∧
      t.rest = rest := by
  obtain ⟨eof, hline, -⟩ := getline_run header h
  refine ⟨{ rest := rest, eof := eof }, ?_, rfl⟩
  rw [printHeaders_succ, hline, if_neg (by simp)]

/-- The loop ends at the end of the stream. -/
theorem printHeaders_end (fuel : Nat) (header : Bytes) (eof : Bool) :
    ∃ t : Istream, printHeaders (fuel + 1) header { rest := [], eof := eof } = .ok ([], t) ∧
      t.rest = [] := by
  cases eof with
  | false => exact ⟨_, rfl, rfl⟩
  | true => exact ⟨_, rfl, rfl⟩

/-- Behind the complete headers. -/
theorem printHeaders_ending {tail printed : Bytes} (h : Ending tail printed) (header : Bytes)
    {fuel : Nat} (hfuel : tail.length < fuel) :
    ∃ headers t, printHeaders fuel header { rest := tail } = .ok (headers, t) ∧
      headers ++ 10 :: t.rest = printed := by
  obtain ⟨fuel, rfl⟩ : ∃ n, fuel = n + 1 := ⟨fuel - 1, by omega⟩
  cases h with
  | blank body =>
      obtain ⟨t, hrun, hrest⟩ := printHeaders_blank (.ended (by decide) body) header fuel
      exact ⟨[], t, hrun, by rw [hrest]; rfl⟩
  | cut =>
      obtain ⟨t, hrun, hrest⟩ := printHeaders_blank (.last (by decide) (by decide)) header fuel
      exact ⟨[], t, hrun, by rw [hrest]; rfl⟩
  | missing =>
      obtain ⟨t, hrun, hrest⟩ := printHeaders_end fuel header false
      exact ⟨[], t, hrun, by rw [hrest]; rfl⟩
  | unfinished hheader hne =>
      have hpos := List.length_pos_of_ne_nil hne
      obtain ⟨fuel, rfl⟩ : ∃ n, fuel = n + 1 := ⟨fuel - 1, by omega⟩
      obtain ⟨t, hrun, hrest⟩ := printHeaders_end fuel tail true
      refine ⟨tail ++ [10], t, ?_, ?_⟩
      · rw [printHeaders_succ, getline_last header hheader.1 hne, if_pos ⟨rfl, hheader.2⟩, hrun]
        rfl
      · rw [hrest, List.append_assoc]
        rfl

/-- The headers one after another, and what comes behind them. -/
theorem printHeaders_lines {lines : List Bytes} (hlines : ∀ line ∈ lines, Header line)
    {tail printed : Bytes} (h : Ending tail printed) (header : Bytes) {fuel : Nat}
    (hfuel : lines.length + tail.length < fuel) :
    ∃ headers t, printHeaders fuel header { rest := joined lines ++ tail } = .ok (headers, t) ∧
      headers ++ 10 :: t.rest = joined lines ++ printed := by
  induction lines generalizing header fuel with
  | nil => exact printHeaders_ending h header (by simpa using hfuel)
  | cons line lines ih =>
      rw [List.length_cons] at hfuel
      obtain ⟨fuel, rfl⟩ : ∃ n, fuel = n + 1 := ⟨fuel - 1, by omega⟩
      have hjoined : ∀ l, joined (line :: lines) ++ l = line ++ 10 :: (joined lines ++ l) := by
        intro l
        simp [joined]
      obtain ⟨headers, t, hrun, hprinted⟩ :=
        ih (fun l hl => hlines l (List.mem_cons_of_mem _ hl)) line
          (show lines.length + tail.length < fuel by omega)
      refine ⟨line ++ 10 :: headers, t, ?_, ?_⟩
      · rw [hjoined, printHeaders_header (hlines line List.mem_cons_self), hrun]
        rfl
      · rw [hjoined, ← hprinted]
        simp

theorem length_le_joined (lines : List Bytes) : lines.length ≤ (joined lines).length := by
  induction lines with
  | nil => exact Nat.le_refl 0
  | cons line lines ih =>
      have hcons : joined (line :: lines) = line ++ 10 :: joined lines := by simp [joined]
      rw [hcons, List.length_append, List.length_cons, List.length_cons]
      omega

/-- **Everything behind the status line is printed.** -/
theorem printPage_run {rest out : Bytes} (h : Page rest out) :
    printPage { rest := rest } = .ok (.page out) := by
  obtain ⟨lines, tail, printed, hlines, hending, rfl, rfl⟩ := h
  have hfuel : lines.length + tail.length < (joined lines ++ tail).length + 1 := by
    have := length_le_joined lines
    rw [List.length_append]
    omega
  obtain ⟨headers, t, hrun, hprinted⟩ := printHeaders_lines hlines hending [] hfuel
  rw [printPage, hrun, ← hprinted]
  rfl

/-- Every text is a page. -/
theorem exists_page (rest : Bytes) : ∃ out, Page rest out := by
  induction hlength : rest.length using Nat.strong_induction_on generalizing rest with
  | _ n ih =>
  by_cases hnl : (10 : UInt8) ∈ rest
  · -- the first line is the empty one, or a header and a page behind it
    obtain ⟨line, more, rfl, hline⟩ := List.eq_append_cons_of_mem hnl
    by_cases hcr : line = text "\r"
    · exact ⟨_, [], _, _, by simp, .blank more, by rw [hcr]; rfl, rfl⟩
    · have hshort : more.length < n := by
        rw [List.length_append, List.length_cons] at hlength
        omega
      obtain ⟨-, lines, tail, printed, hlines, hending, hmore, -⟩ := ih more.length hshort more rfl
      refine ⟨_, line :: lines, tail, printed, ?_, hending, ?_, rfl⟩
      · intro l hl
        rcases List.mem_cons.mp hl with rfl | hl
        · exact ⟨hline, hcr⟩
        · exact hlines l hl
      · rw [hmore]
        simp [joined]
  · by_cases hnil : rest = []
    · exact ⟨_, [], [], _, by simp, .missing, by simp [hnil, joined], rfl⟩
    by_cases hcr : rest = text "\r"
    · exact ⟨_, [], _, _, by simp, .cut, by simp [hcr, joined], rfl⟩
    · exact ⟨_, [], rest, _, by simp, .unfinished ⟨hnl, hcr⟩ hnil, rfl, rfl⟩

/-! ### The status line -/

/-- What is done behind a status line. -/
theorem printResponse_run {response rest : Bytes} {code : Nat}
    (h : StatusLine response code rest) :
    printResponse response
      = if code = 200 then printPage { rest := rest } else .ok (.statusCode code) := by
  obtain ⟨ws, version, ws', field, tail, message, rfl, hws, hversion, hhttp, hne, hws', hfield,
    htail, hline⟩ := h
  have hgap : ∀ c ∈ (ws' ++ (field ++ tail)).head?, isSpace c := by
    obtain ⟨c, more, rfl⟩ := List.exists_cons_of_ne_nil hne
    intro x hx
    rw [← Option.some.inj hx]
    exact hws' c List.mem_cons_self
  have hbehind : ws' ++ (field ++ tail) ≠ [] := by simp [hne]
  have htailne : tail ≠ [] := by
    cases hline with
    | ended => simp
    | last h hne => exact hne
  have hword := word_run [] hws hversion hgap
  have hnumber := number_run 0 hws' hfield htail
  obtain ⟨eof, hgetline, heof⟩ := getline_run [] hline
  have htake : version.take 5 = text "HTTP/" := (List.prefix_iff_eq_take.mp hhttp).symm
  simp only [hbehind, decide_false] at hword
  simp only [htailne, decide_false] at hnumber
  simp only [printResponse, hword, hnumber, hgetline, htake]
  by_cases hcode : code = 200
  · rw [if_neg (by simp), if_neg (by simpa using hcode), if_pos hcode]
    -- a stream that has ended prints the same page as one that is empty
    cases eof with
    | false => rfl
    | true =>
        rw [heof rfl]
        rfl
  · rw [if_neg (by simp), if_pos hcode, if_neg hcode]

theorem printResponse_invalid {response : Bytes}
    (h : ((((word [] { rest := response }).2.number 0).2.getline []).2.fail = true) ∨
      ¬ text "HTTP/" <+: (word [] { rest := response }).1) :
    printResponse response = .ok .invalidResponse := by
  rw [List.prefix_iff_eq_take.trans eq_comm] at h
  exact if_pos h

/-- There is no other way past `Invalid response`. -/
theorem statusLine_of_not_invalid {response : Bytes}
    (h : printResponse response ≠ .ok .invalidResponse) :
    ∃ code rest, StatusLine response code rest := by
  obtain ⟨hfail, hhttp⟩ := not_or.mp (mt printResponse_invalid h)
  rw [Bool.not_eq_true] at hfail
  rw [not_not] at hhttp
  obtain ⟨tail, message, rest, hafter, hline⟩ := getline_inv hfail
  obtain ⟨ws', field, code, tail', hbefore, hws', hfield, htail⟩ :=
    number_inv (by rw [hafter])
  obtain ⟨ws, version, gap, hresponse, hws, hversion, hgap⟩ := word_inv (by rw [hbefore])
  obtain rfl := congrArg Istream.rest hresponse
  have hword := word_run [] hws hversion hgap
  rw [hword] at hbefore hhttp hafter
  obtain rfl : gap = ws' ++ (field ++ tail') := congrArg Istream.rest hbefore
  have hnumber := number_run 0 hws' hfield htail
  rw [hbefore, hnumber] at hafter
  obtain rfl : tail' = tail := congrArg Istream.rest hafter
  have hne : ws' ≠ [] := by
    rintro rfl
    obtain ⟨c, body, digits, rfl, hc, -⟩ := hfield.shape
    exact hc (hgap c rfl)
  exact ⟨code, rest, ws, version, ws', field, tail', message, rfl, hws, hversion, hhttp, hne,
    hws', hfield, htail, hline⟩

/-- What a response is, and what is done with it. -/
theorem printResponse_cases (response : Bytes) :
    (∃ rest out, StatusLine response 200 rest ∧ Page rest out ∧
      printResponse response = .ok (.page out)) ∨
    (∃ code rest, code ≠ 200 ∧ StatusLine response code rest ∧
      printResponse response = .ok (.statusCode code)) ∨
    printResponse response = .ok .invalidResponse := by
  by_cases hinvalid : printResponse response = .ok .invalidResponse
  · exact .inr (.inr hinvalid)
  obtain ⟨code, rest, hline⟩ := statusLine_of_not_invalid hinvalid
  have hrun := printResponse_run hline
  by_cases hcode : code = 200
  · subst hcode
    obtain ⟨out, hout⟩ := exists_page rest
    rw [if_pos rfl, printPage_run hout] at hrun
    exact .inl ⟨rest, out, hline, hout, hrun⟩
  · rw [if_neg hcode] at hrun
    exact .inr (.inl ⟨code, rest, hcode, hline, hrun⟩)

/--
**A response is accepted exactly if it begins with a status line.**  With the status 200
everything behind that line is printed, up to one carriage return; with another one the status
is; and everything else is invalid.
-/
theorem printResponse_iff (response : Bytes) :
    (∀ out, printResponse response = .ok (.page out) ↔
      ∃ rest, StatusLine response 200 rest ∧ Page rest out) ∧
    (∀ code, printResponse response = .ok (.statusCode code) ↔
      code ≠ 200 ∧ ∃ rest, StatusLine response code rest) ∧
    (printResponse response = .ok .invalidResponse ↔
      ¬ ∃ code rest, StatusLine response code rest) := by
  refine ⟨fun out => ⟨?_, ?_⟩, fun code => ⟨?_, ?_⟩, ?_, ?_⟩
  · intro hpage
    rcases printResponse_cases response with ⟨rest, out', hline, hout, hrun⟩ |
      ⟨code, rest, hcode, hline, hrun⟩ | hrun
    · obtain rfl : out' = out := by simpa [hrun] using hpage
      exact ⟨rest, hline, hout⟩
    · simp [hrun] at hpage
    · simp [hrun] at hpage
  · rintro ⟨rest, hline, hout⟩
    rw [printResponse_run hline, if_pos rfl, printPage_run hout]
  · intro hstatus
    rcases printResponse_cases response with ⟨rest, out, hline, hout, hrun⟩ |
      ⟨code', rest, hcode, hline, hrun⟩ | hrun
    · simp [hrun] at hstatus
    · obtain rfl : code' = code := by simpa [hrun] using hstatus
      exact ⟨hcode, rest, hline⟩
    · simp [hrun] at hstatus
  · rintro ⟨hcode, rest, hline⟩
    rw [printResponse_run hline, if_neg hcode]
  · rintro hinvalid ⟨code, rest, hline⟩
    rw [printResponse_run hline] at hinvalid
    obtain ⟨out, hout⟩ := exists_page rest
    split at hinvalid
    · simp [printPage_run hout] at hinvalid
    · simp at hinvalid
  · intro hnone
    by_contra hvalid
    exact hnone (statusLine_of_not_invalid hvalid)

/-! ### A whole request -/

/-- The status line of a rendered response. -/
theorem render_statusLine {version reason : Bytes} (hversion : Word version)
    (hhttp : text "HTTP/" <+: version) (hreason : 10 ∉ reason) (headers : List Bytes)
    (body : Bytes) :
    StatusLine (render version reason headers body) 200
      (joined (headers.map (· ++ text "\r")) ++ (text "\r" ++ 10 :: body)) := by
  have hnumber : Number (text "200") 200 :=
    .plain (show text "200" ≠ [] by decide) (List.all_eq_true.mp rfl) (by decide)
  have hline : (10 : UInt8) ∉ text " " ++ reason ++ text "\r" := by
    have hends : (10 : UInt8) ∉ text " " ∧ (10 : UInt8) ∉ text "\r" := by decide
    simp [hends, hreason]
  refine ⟨[], version, text " ", text "200", _, text " " ++ reason ++ text "\r", ?_, ?_, hversion,
    hhttp, List.cons_ne_nil _ _, ?_, hnumber, ?_, .ended hline _⟩
  · have hsplit : text " 200 " = text " " ++ (text "200" ++ text " ") := rfl
    have hcrlf : crlf = text "\r" ++ [10] := rfl
    simp only [render, hsplit, hcrlf, List.append_assoc, List.nil_append, List.cons_append]
  · intro c hc
    exact absurd hc List.not_mem_nil
  · exact List.all_eq_true.mp (show (text " ").all isSpace = true from rfl)
  · intro c hc
    rw [← Option.some.inj hc]
    decide

/-- The page a rendered response is printed as. -/
theorem render_page {headers : List Bytes}
    (hheaders : ∀ header ∈ headers, 10 ∉ header ∧ header ≠ []) (body : Bytes) :
    Page (joined (headers.map (· ++ text "\r")) ++ (text "\r" ++ 10 :: body))
      (joined (headers.map (· ++ text "\r")) ++ 10 :: body) := by
  refine ⟨headers.map (· ++ text "\r"), _, _, ?_, .blank body, rfl, rfl⟩
  intro line hline
  obtain ⟨header, hmem, rfl⟩ := List.mem_map.mp hline
  obtain ⟨hnl, hne⟩ := hheaders header hmem
  refine ⟨?_, ?_⟩
  · have hcr : (10 : UInt8) ∉ text "\r" := by decide
    simp [hnl, hcr]
  · intro hblank
    have hlength := congrArg List.length hblank
    rw [List.length_append] at hlength
    have := List.length_pos_of_ne_nil hne
    omega

/--
**What a host answers to the request is printed.**  The host sees the request that the URL
stands for, and of its answer all headers and the whole body come out, whatever bytes they
are made of.
-/
theorem syncHttp_page (host : Host) (url : Bytes) {q : SyncRequest}
    (hurl : syncHttpFull url = .ok q)
    (hconnect : host.connectError q.connect = none) {version reason body : Bytes}
    {headers : List Bytes} (hversion : Word version) (hhttp : text "HTTP/" <+: version)
    (hreason : 10 ∉ reason) (hheaders : ∀ header ∈ headers, 10 ∉ header ∧ header ≠ [])
    (hrespond : host.respond q.request = render version reason headers body) :
    syncHttp host url = .ok (.page (joined (headers.map (· ++ text "\r")) ++ 10 :: body)) := by
  have hline := render_statusLine hversion hhttp hreason headers body
  have hpage := printPage_run (render_page hheaders body)
  simp only [syncHttp, hurl, hconnect, hrespond]
  rw [printResponse_run hline, if_pos rfl, hpage]

/-- A host that answers every request with the same page. -/
def helloHost : Host where
  connectError := fun _ => none
  respond := fun _ => render (text "HTTP/1.0") (text "OK") [text "A: b"] (text "hi")

/-- The request it gets. -/
def helloRequest : SyncRequest where
  host := text "h"
  connect := text "h"
  request := text "GET http://h/ HTTP/1.0\r\nHost: h\r\nAccept: */*\r\nConnection: close\r\n\r\n"

theorem syncHttp_hello :
    syncHttp helloHost (text "http://h/")
      = .ok (.page (joined [text "A: b\r"] ++ 10 :: text "hi")) :=
  syncHttp_page helloHost (text "http://h/")
    (show syncHttpFull (text "http://h/") = .ok helloRequest by decide) rfl
    (.of_all (by decide) rfl)
    (by decide) (show 10 ∉ text "OK" by decide)
    (show ∀ header ∈ [text "A: b"], 10 ∉ header ∧ header ≠ [] by decide) rfl

end Technopark.Http
