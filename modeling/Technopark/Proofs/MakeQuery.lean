/-
`make_query` on every string.

The length handed to `substr` is the position of the next slash minus the start of the
host.  Without another slash the position is `npos`, and what comes out is still at least
as long as the rest of the string, so the host is in both cases everything up to the next
slash.  `hostOf` is that host, and the two copies of the code compute nothing else.
-/
import Technopark.Net.Http

namespace Technopark.Http

/-! ### What a URL is split into -/

/-- The first `"//"` of a string, with what is before and behind it. -/
structure FirstSlashes (u before behind : Bytes) : Prop where
  split : u = before ++ text "//" ++ behind
  first : ∀ j < before.length, ¬ text "//" <+: u.drop j

/-- There is no `"//"`, or nothing or another slash behind the first one. -/
def BadUrl (u : Bytes) : Prop :=
  ¬ text "//" <:+: u ∨
    ∃ before behind, FirstSlashes u before behind ∧ (behind = [] ∨ behind.head? = some 47)

/-- `make_query` splits the string where it should, or refuses it. -/
structure SplitsUrl (u : Bytes) : Prop where
  throws : (∃ e, makeQuery u = .error e) ↔ BadUrl u
  /-- No other exception, so in particular not that of `substr`. -/
  thrown : ∀ e, makeQuery u = .error e → e = .runtimeError "bad query"
  /-- `substr` starts inside the string. -/
  start : find u (text "//") 0 ≠ npos → sizeT (find u (text "//") 0 + 2) ≤ u.length
  parts : ∀ q, makeQuery u = .ok q → ∃ before rest,
    FirstSlashes u before (q.host ++ rest) ∧ q.host ≠ [] ∧ (47 : UInt8) ∉ q.host ∧
    (rest = [] ∨ rest.head? = some 47) ∧
    q.query = text "GET " ++ u ++ text " HTTP/1.1\r\nHost: " ++ q.host ++ text "\r\n\r\n"
  /-- The copy in `sync_http_full` has the same host, or throws the same. -/
  copy : (syncHttpFull u).map SyncRequest.host = (makeQuery u).map HttpQuery.host

/-! ### The host -/

section
variable {u : Bytes} {p : Nat}

/-- Everything up to the next slash. -/
def hostOf (behind : Bytes) : Bytes := behind.takeWhile (· ≠ 47)

theorem indexOf_slashes_le (h : indexOf (text "//") u = some p) : p + 2 ≤ u.length := indexOf_le h

theorem sizeT_start (hsize : u.length < npos) (h : indexOf (text "//") u = some p) :
    sizeT (p + 2) = p + 2 := by
  have hle := indexOf_slashes_le h
  unfold npos sizeMod at hsize
  exact sizeT_eq (by omega)

/-- **The host is what is between the slashes, whether or not the length wraps.** -/
theorem substr_host (hsize : u.length < npos) (h : indexOf (text "//") u = some p) :
    substr u (sizeT (p + 2)) (sizeTSub (sizeTSub (find u (text "/") (sizeT (p + 2))) p) 2)
      = .ok (hostOf (u.drop (p + 2))) := by
  have hle := indexOf_slashes_le h
  have hchar : text "/" = [47] := by decide
  rw [sizeT_start hsize h, substr_ok hle, hchar]
  cases hslash : indexOf [47] (u.drop (p + 2)) with
  | some i =>
      have hi := indexOf_le hslash
      rw [List.length_drop, List.length_singleton] at hi
      have hlength : sizeTSub (sizeTSub (p + 2 + i) p) 2 = i := by
        unfold npos sizeMod at hsize
        rw [sizeTSub_eq (show p ≤ p + 2 + i by omega) (by omega), sizeTSub_eq (by omega) (by omega)]
        omega
      rw [find_of_some hle hslash, hlength, take_indexOf_singleton hslash]
      rfl
  | none =>
      have hlength : u.length - (p + 2) ≤ sizeTSub (sizeTSub npos p) 2 := by
        unfold npos sizeMod at hsize
        unfold npos sizeTSub sizeT sizeMod
        omega
      rw [find_of_none hslash, List.take_of_length_le (by rwa [List.length_drop]), hostOf,
        takeWhile_of_indexOf_none hslash]

theorem indexOf_slashes_ne (hsize : u.length < npos) (h : indexOf (text "//") u = some p) :
    p ≠ npos := by
  have hle := indexOf_slashes_le h
  omega

theorem makeQuery_none (h : indexOf (text "//") u = none) :
    makeQuery u = .error (.runtimeError "bad query") := by
  rw [makeQuery, find_of_none h, if_pos rfl]
  rfl

/-- What `make_query` does with a string that has a `"//"`. -/
theorem makeQuery_some (hsize : u.length < npos) (h : indexOf (text "//") u = some p) :
    makeQuery u = if hostOf (u.drop (p + 2)) = [] then .error (.runtimeError "bad query") else
      .ok { query := text "GET " ++ u ++ text " HTTP/1.1\r\nHost: " ++ hostOf (u.drop (p + 2))
              ++ text "\r\n\r\n"
            host := hostOf (u.drop (p + 2)) } := by
  rw [makeQuery, find_start h, if_neg (indexOf_slashes_ne hsize h), substr_host hsize h]
  show (if hostOf (u.drop (p + 2)) = [] then _ else _) = _
  have hfirst : text " HTTP/1.1\r\nHost: " = text " HTTP/1.1\r\n" ++ text "Host: " := by decide
  have hlast : text "\r\n\r\n" = text "\r\n" ++ text "\r\n" := by decide
  split
  · rfl
  · rw [hfirst, hlast]
    simp only [List.append_assoc]
    rfl

/-- The copy in `sync_http_full`. -/
theorem syncHttpFull_host (hsize : u.length < npos) :
    (syncHttpFull u).map SyncRequest.host = (makeQuery u).map HttpQuery.host := by
  cases h : indexOf (text "//") u with
  | none =>
      rw [makeQuery_none h, syncHttpFull, find_of_none h, if_pos rfl]
      rfl
  | some p =>
      rw [makeQuery_some hsize h, syncHttpFull, find_start h,
        if_neg (indexOf_slashes_ne hsize h), substr_host hsize h]
      show Except.map _ (if hostOf (u.drop (p + 2)) = [] then _ else _) = _
      split
      · rfl
      · rfl

theorem FirstSlashes.of_indexOf (h : indexOf (text "//") u = some p) :
    FirstSlashes u (u.take p) (u.drop (p + 2)) := by
  obtain ⟨hle, -, hfirst⟩ := indexOf_eq_some_iff.mp h
  refine ⟨indexOf_split h, ?_⟩
  rw [List.length_take, Nat.min_eq_left hle]
  exact hfirst

theorem FirstSlashes.indexOf_eq {before behind : Bytes} (h : FirstSlashes u before behind) :
    indexOf (text "//") u = some before.length ∧ u.drop (before.length + 2) = behind := by
  refine ⟨indexOf_of_split h.split h.first, ?_⟩
  rw [h.split, List.drop_left']
  rw [List.length_append]
  rfl

theorem hostOf_eq_nil_iff (behind : Bytes) :
    hostOf behind = [] ↔ behind = [] ∨ behind.head? = some 47 := by
  cases behind with
  | nil => simp [hostOf]
  | cons c behind =>
      rw [hostOf, List.takeWhile_cons]
      by_cases hc : c = 47
      · simp [hc]
      · simp [hc]

/-- A `"//"` makes the URL bad exactly if no host comes behind it. -/
theorem badUrl_iff (h : indexOf (text "//") u = some p) :
    BadUrl u ↔ hostOf (u.drop (p + 2)) = [] := by
  rw [hostOf_eq_nil_iff]
  constructor
  · rintro (hnot | ⟨before, behind, hfirst, hbad⟩)
    · rw [indexOf_eq_none_iff.mpr hnot] at h
      injection h
    · obtain ⟨hindex, hbehind⟩ := hfirst.indexOf_eq
      rw [h] at hindex
      obtain rfl := Option.some.inj hindex
      rw [hbehind]
      exact hbad
  · intro hbad
    exact .inr ⟨_, _, .of_indexOf h, hbad⟩

/-- Everything behind the `"//"`, as the host and the rest. -/
theorem hostOf_parts (behind : Bytes) :
    ∃ rest, behind = hostOf behind ++ rest ∧ (47 : UInt8) ∉ hostOf behind ∧
      (rest = [] ∨ rest.head? = some 47) := by
  refine ⟨behind.dropWhile (· ≠ 47), List.takeWhile_append_dropWhile.symm, ?_, ?_⟩
  · intro hmem
    have := List.mem_takeWhile_imp hmem
    simp at this
  · cases hrest : behind.dropWhile (· ≠ 47) with
    | nil => exact .inl rfl
    | cons c rest =>
        refine .inr ?_
        have hnot := List.head?_dropWhile_not (fun c : UInt8 => decide (c ≠ 47)) behind
        rw [hrest] at hnot
        simpa using hnot

/-- A URL that is refused. -/
theorem splitsUrl_of_bad (hsize : u.length < npos) (hbad : BadUrl u)
    (hrun : makeQuery u = .error (.runtimeError "bad query"))
    (hstart : find u (text "//") 0 ≠ npos → sizeT (find u (text "//") 0 + 2) ≤ u.length) :
    SplitsUrl u := by
  refine ⟨⟨fun _ => hbad, fun _ => ⟨_, hrun⟩⟩, ?_, hstart, ?_, syncHttpFull_host hsize⟩
  · intro e he
    rw [hrun] at he
    injection he with he
    exact he.symm
  · intro q hq
    rw [hrun] at hq
    injection hq

/--
**`make_query` throws exactly on a URL without a host behind its first `"//"`, and
otherwise asks that host for the URL.**
-/
theorem makeQuery_splitsUrl (u : Bytes) (hsize : u.length < npos) : SplitsUrl u := by
  cases h : indexOf (text "//") u with
  | none =>
      have hbad : BadUrl u := .inl (indexOf_eq_none_iff.mp h)
      exact splitsUrl_of_bad hsize hbad (makeQuery_none h) fun hne => absurd (find_of_none h) hne
  | some p =>
      have hrun := makeQuery_some hsize h
      have hstart : sizeT (find u (text "//") 0 + 2) ≤ u.length := by
        rw [find_start h, sizeT_start hsize h]
        exact indexOf_slashes_le h
      by_cases hhost : hostOf (u.drop (p + 2)) = []
      · rw [if_pos hhost] at hrun
        exact splitsUrl_of_bad hsize ((badUrl_iff h).mpr hhost) hrun fun _ => hstart
      · rw [if_neg hhost] at hrun
        refine ⟨⟨?_, ?_⟩, ?_, fun _ => hstart, ?_, syncHttpFull_host hsize⟩
        · rintro ⟨e, he⟩
          rw [hrun] at he
          injection he
        · intro hbad
          exact absurd ((badUrl_iff h).mp hbad) hhost
        · intro e he
          rw [hrun] at he
          injection he
        · intro q hq
          rw [hrun] at hq
          injection hq with hq
          subst hq
          obtain ⟨rest, hsplit, hno, hrest⟩ := hostOf_parts (u.drop (p + 2))
          have hfirst := FirstSlashes.of_indexOf h
          rw [hsplit] at hfirst
          exact ⟨_, rest, hfirst, hhost, hno, hrest, rfl⟩

/-- `"http://ya.ru"`. -/
theorem makeQuery_splitsUrl_ya :
    SplitsUrl (text "http://ya.ru") ∧
    makeQuery (text "http://ya.ru")
      = .ok { query := text "GET http://ya.ru HTTP/1.1\r\nHost: ya.ru\r\n\r\n"
              host := text "ya.ru" } :=
  ⟨makeQuery_splitsUrl _ (by decide), by decide⟩

end

end Technopark.Http
