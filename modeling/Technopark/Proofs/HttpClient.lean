/-
What the HTTP client shows of a response.

The callback looks for the empty line behind the headers, but it gets the response without the
line ends that `recv_loop` has taken off: those at its end, and those before every cut that
the network makes.  A response whose cuts are good and that has a body shows its headers
(`client_shows_headers`).  A response without a body never does, however it is cut
(`client_needs_body`): no cut can make an empty line where there was none.
-/
import Technopark.Net.HttpClient
import Technopark.Proofs.SocketRecv

namespace Technopark.HttpClient

open Socket

/-! ### Up to the response -/

/-- The query is sent, and the answer comes in these pieces. -/
structure Answered (env : Environment) (url : Bytes) (chunks : List Bytes) (last : StreamEnd) :
    Prop where
  url : ∃ q, Http.makeQuery url = .ok q ∧
    (send env.peer.send env.peer.fuel q.query).reply { log := [] } = .ok ()
  connects : (connect env.connect).reply (construct none) = .ok ()
  timeout : env.setRcvTimeout = 0
  response : env.peer.recv = chunks.map .data ++ [last.recv]

variable {env : Environment} {url program : Bytes} {chunks : List Bytes} {last : StreamEnd}

/-- From there on only the response matters. -/
theorem request_eq (h : Answered env url chunks last) :
    request env url = received chunks last >>= showHeaders := by
  obtain ⟨⟨q, hq, hsend⟩, hconnect, htimeout, hresponse⟩ := h
  rw [request, hq, ok_bind, hconnect, ok_bind, setRcvTimeout, if_neg (not_not.mpr htimeout),
    ok_bind, httpQuery, hsend, ok_bind, hresponse]
  rfl

/-! ### Empty lines -/

/-- No occurrence reaches over a character that is not in the pattern. -/
theorem infix_over_iff {pat s t : Bytes} {c : UInt8} (hc : c ∉ pat) :
    pat <:+: s ++ c :: t ↔ pat <:+: s ∨ pat <:+: t := by
  have hnone (u : Bytes) : pat <:+: u ↔ indexOf pat u ≠ none := by
    rw [ne_eq, indexOf_eq_none_iff, not_not]
  constructor
  · intro h
    by_contra hneither
    rw [not_or] at hneither
    obtain ⟨hs, ht⟩ := hneither
    rw [← indexOf_eq_none_iff] at hs ht
    rw [hnone, indexOf_skip hs hc, ht] at h
    exact h rfl
  · rintro (h | h)
    · exact h.trans (List.prefix_append _ _).isInfix
    · exact h.trans ⟨s ++ [c], [], by simp⟩

/-- `"\r\n\r\n"` is nothing but line ends. -/
theorem not_mem_headerEnd {c : UInt8} (h : ¬ isEol c) : c ∉ headerEnd := by
  intro hmem
  refine h ?_
  have hall : headerEnd.all isEol = true := rfl
  exact List.all_eq_true.mp hall c hmem

/-- Where the last character that is not a line end stands. -/
theorem exists_last {stream : Bytes} (h : ∃ c ∈ stream, ¬ isEol c) :
    ∃ s c eols, stream = s ++ c :: eols ∧ ¬ isEol c ∧ ∀ x ∈ eols, isEol x := by
  induction stream using List.reverseRecOn with
  | nil => simp at h
  | append_singleton stream x ih =>
      by_cases hx : isEol x
      · obtain ⟨c, hc, hne⟩ := h
        have hmem : c ∈ stream := by
          rcases List.mem_append.mp hc with hc | hc
          · exact hc
          · rw [List.mem_singleton.mp hc] at hne
            exact absurd hx hne
        obtain ⟨s, c', eols, rfl, hc', heols⟩ := ih ⟨c, hmem, hne⟩
        refine ⟨s, c', eols ++ [x], by simp, hc', ?_⟩
        intro y hy
        rcases List.mem_append.mp hy with hy | hy
        · exact heols y hy
        · rw [List.mem_singleton.mp hy]
          exact hx
      · exact ⟨stream, x, [], rfl, hx, by simp⟩

/-- Trimming does not reach over a character that is not a line end. -/
theorem trimmed_over {s t : Bytes} {c : UInt8} (hc : ¬ isEol c) :
    trimmed (s ++ c :: t) = s ++ c :: trimmed t := by
  rw [List.append_cons s c t, List.append_cons s c (trimmed t)]
  by_cases ht : ∃ x ∈ t, ¬ isEol x
  · obtain ⟨x, hx, hne⟩ := ht
    exact rdropWhile_append_of_mem hx hne
  · push Not at ht
    have hnil : trimmed t = [] := List.rdropWhile_eq_nil_iff.mpr ht
    rw [hnil, List.append_nil, trimmed, rdropWhile_append_of_all ht]
    exact List.rdropWhile_concat_neg isEol s c hc

theorem trimmed_within (s t : Bytes) : trimmed t <:+: trimmed (s ++ t) := by
  by_cases ht : ∃ x ∈ t, ¬ isEol x
  · obtain ⟨x, hx, hne⟩ := ht
    rw [trimmed, trimmed, rdropWhile_append_of_mem hx hne]
    exact (List.suffix_append _ _).isInfix
  · push Not at ht
    have hnil : trimmed t = [] := List.rdropWhile_eq_nil_iff.mpr ht
    rw [hnil]
    exact (List.nil_prefix).isInfix

/-- **Taking line ends off in the middle makes no empty line.** -/
theorem feed_no_headerEnd (chunks : List Bytes) : ∀ {ret result : Bytes}, trimmed ret = ret →
    ¬ headerEnd <:+: trimmed (ret ++ chunks.flatten) → feed chunks ret = .ok result →
    ¬ headerEnd <:+: result := by
  induction chunks with
  | nil =>
      intro ret result hret h hfeed
      obtain rfl : ret = result := Except.ok.inj hfeed
      rwa [List.flatten_nil, List.append_nil, hret] at h
  | cons chunk chunks ih =>
      intro ret result _ h hfeed
      obtain ⟨s, c, eols, hlast, hc, heols⟩ := exists_last (exists_of_feed_cons hfeed)
      have htrimmed : trimmed (ret ++ chunk) = s ++ [c] := by
        have hnil : trimmed eols = [] := List.rdropWhile_eq_nil_iff.mpr heols
        rw [hlast, trimmed_over hc, hnil]
      have hstream : ret ++ (chunk :: chunks).flatten = s ++ c :: (eols ++ chunks.flatten) := by
        rw [List.flatten_cons, ← List.append_assoc, hlast, List.append_assoc, List.cons_append]
      rw [feed_cons (exists_of_feed_cons hfeed), htrimmed] at hfeed
      refine ih ?_ ?_ hfeed
      · rw [← htrimmed, trimmed_trimmed]
      · rw [hstream, trimmed_over hc, infix_over_iff (not_mem_headerEnd hc)] at h
        rw [List.append_assoc, List.singleton_append, trimmed_over hc,
          infix_over_iff (not_mem_headerEnd hc)]
        rintro (hbefore | hbehind)
        · exact h (.inl hbefore)
        · exact h (.inr (hbehind.trans (trimmed_within _ _)))

/-- Once there is something to return, the loop comes to its end. -/
theorem feed_ok (chunks : List Bytes) : ∀ {ret : Bytes}, (∃ c ∈ ret, ¬ isEol c) →
    ∃ result, feed chunks ret = .ok result := by
  induction chunks with
  | nil => intro ret _; exact ⟨ret, rfl⟩
  | cons chunk chunks ih =>
      intro ret hret
      obtain ⟨c, hmem, hne⟩ := hret
      have hsome : ∃ c ∈ ret ++ chunk, ¬ isEol c := ⟨c, List.mem_append_left _ hmem, hne⟩
      obtain ⟨s, c', eols, hlast, hc', -⟩ := exists_last hsome
      rw [feed_cons hsome, hlast, trimmed_over hc']
      exact ih ⟨c', by simp, hc'⟩

/-! ### What is shown -/

theorem showHeaders_none {resp : Bytes} (h : ¬ headerEnd <:+: resp) :
    showHeaders resp = .error (.runtimeError "exception: error getting headers") := by
  have hnone : indexOf (text "\r\n\r\n") (resp.drop 0) = none := indexOf_eq_none_iff.mpr h
  rw [showHeaders, find_of_none hnone, if_pos rfl]
  rfl

/--
**Without a body there are no headers to show.**  However a response is cut, if no empty line has
anything but line ends behind it, the client reports that it got no headers.  If the first piece
is nothing but line ends, not even that is certain.
-/
theorem client_needs_body (h : Answered env url chunks last)
    (hbody : ¬ headerEnd <:+: trimmed chunks.flatten) :
    main env [program, url] = .ok (.exception "exception: error getting headers") ∨
      main env [program, url] = .error (.undefined .emptyString) ∧
        ∃ chunk ∈ chunks.head?, ∀ c ∈ chunk, isEol c := by
  rw [main, request_eq h, received_eq_feed]
  cases hfeed : feed chunks [] with
  | ok result =>
      have hnone := feed_no_headerEnd chunks (show trimmed [] = [] from rfl) hbody hfeed
      rw [ok_bind, showHeaders_none hnone]
      exact .inl rfl
  | error e =>
      obtain ⟨chunk, chunks, rfl⟩ := List.exists_cons_of_ne_nil (l := chunks) (by
        rintro rfl
        injection hfeed)
      by_cases hsome : ∃ c ∈ chunk, ¬ isEol c
      · obtain ⟨s, c, eols, hlast, hc, -⟩ := exists_last hsome
        rw [feed_cons (by simpa using hsome), List.nil_append, hlast, trimmed_over hc] at hfeed
        have hmore : ∃ x ∈ s ++ c :: trimmed eols, ¬ isEol x := ⟨c, by simp, hc⟩
        obtain ⟨result, hresult⟩ := feed_ok chunks hmore
        rw [hresult] at hfeed
        injection hfeed
      · push Not at hsome
        rw [feed, List.foldlM_cons, List.nil_append, trimBack_undefined hsome, error_bind] at hfeed
        injection hfeed with hfeed
        rw [← hfeed, error_bind]
        exact .inr ⟨rfl, chunk, rfl, hsome⟩

/-- A host that takes the query for `"http://h"` in one piece and answers in these. -/
def oneHost (chunks : List Bytes) : Environment where
  connect := { socket := 3 }
  peer := {
    send := { result := fun _ => 34, strerror := fun _ => "" }
    fuel := 1
    recv := chunks.map .data ++ [StreamEnd.closed.recv] }

theorem oneHost_answered (chunks : List Bytes) :
    Answered (oneHost chunks) (text "http://h") chunks .closed := by
  refine ⟨⟨⟨text "GET http://h HTTP/1.1\r\nHost: h\r\n\r\n", text "h"⟩, ?_, ?_⟩, rfl, rfl, rfl⟩
  · decide
  · show (send { result := fun _ => 34, strerror := fun _ => "" } 1 _).reply { log := [] } = _
    decide

theorem client_needs_body_cut :
    main (oneHost [text "A: b\r\n", text "\r\n"]) [text "client", text "http://h"]
        = .ok (.exception "exception: error getting headers") ∨
      main (oneHost [text "A: b\r\n", text "\r\n"]) [text "client", text "http://h"]
          = .error (.undefined .emptyString) ∧
        ∃ chunk ∈ [text "A: b\r\n", text "\r\n"].head?, ∀ c ∈ chunk, isEol c :=
  client_needs_body (oneHost_answered _) (by decide)

/-- With good boundaries the whole response is received. -/
theorem received_good (h : GoodBoundaries chunks) :
    received chunks last = .ok (trimmed chunks.flatten) := by
  rw [received_eq_feed]
  rcases h with rfl | ⟨⟨chunk, hhead, hsome⟩, hboundary⟩
  · rfl
  · obtain ⟨first, chunks, rfl⟩ := List.exists_cons_of_ne_nil (l := chunks) (by
      rintro rfl
      exact absurd hhead (by simp))
    obtain rfl : first = chunk := Option.some.inj hhead
    rw [feed_cons (by simpa using hsome), List.nil_append, List.flatten_cons]
    refine feed_eq chunks first hsome ?_
    intro before after hsplit hlost
    exact hboundary (first :: before) after (by rw [hsplit]; rfl) (by simpa using hlost)

/--
**A response with a body shows its headers**, if no piece that has more behind it ends in a
line end.
-/
theorem client_shows_headers (h : Answered env url chunks last) {headers body : Bytes}
    (hsize : chunks.flatten.length < npos) (hgood : GoodBoundaries chunks)
    (hresponse : chunks.flatten = headers ++ headerEnd ++ body) (hbody : ∃ c ∈ body, ¬ isEol c)
    (hfirst : ∀ j < headers.length, ¬ headerEnd <+: chunks.flatten.drop j) :
    main env [program, url] = .ok (.headers headers) := by
  obtain ⟨rest, hrest⟩ := trimmed_header hresponse hbody
  have hindex : indexOf (text "\r\n\r\n") (trimmed chunks.flatten) = some headers.length := by
    refine indexOf_of_split hrest ?_
    intro j hj hstarts
    refine hfirst j hj (hstarts.trans ?_)
    exact (List.rdropWhile_prefix isEol chunks.flatten).drop j
  have hlength : headers.length < npos := by
    have := congrArg List.length hresponse
    rw [List.length_append, List.length_append] at this
    omega
  have hcut : (trimmed chunks.flatten).take headers.length = headers := by
    rw [hrest, List.append_assoc, List.take_left]
  have hshown : showHeaders (trimmed chunks.flatten) = .ok headers := by
    rw [showHeaders, find_start hindex, if_neg (Nat.ne_of_lt hlength)]
    exact (substr_ok (Nat.zero_le _) _).trans (congrArg Except.ok hcut)
  rw [main, request_eq h, received_good hgood, ok_bind, hshown]

/-- A response in three pieces, none of which loses anything. -/
def threePieces : List Bytes := [text "A: ", text "b\r\n\r\nh", text "i\n"]

theorem threePieces_good : GoodBoundaries threePieces := by
  refine .inr ⟨⟨_, rfl, 65, List.mem_cons_self, by decide⟩, ?_⟩
  rintro (_ | ⟨first, _ | ⟨second, _ | ⟨third, before⟩⟩⟩) after hsplit hlost
  · obtain ⟨c, hc, -⟩ := hlost
    exact absurd hc (by simp)
  · injection hsplit with hfirst _
    subst hfirst
    exact absurd hlost (by decide)
  · injection hsplit with hfirst hrest
    injection hrest with hsecond _
    subst hfirst hsecond
    exact absurd hlost (by decide)
  · injection hsplit with _ hrest
    injection hrest with _ hrest
    injection hrest with _ hrest
    rw [(List.append_eq_nil_iff.mp hrest.symm).2]
    simp

theorem client_shows_one_header :
    main (oneHost threePieces) [text "client", text "http://h"] = .ok (.headers (text "A: b")) :=
  client_shows_headers (oneHost_answered _) (by decide) threePieces_good
    (show threePieces.flatten = text "A: b" ++ headerEnd ++ text "hi\n" from rfl)
    ⟨104, List.mem_cons_self, by decide⟩ (by decide)

end Technopark.HttpClient
