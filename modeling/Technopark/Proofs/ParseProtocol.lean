/-
`parse_protocol`: where the content length comes from, and what is left of it.

Two things in the function reach behind the header.  The field name is searched for in
the whole buffer, so a header without it lets the body supply one.  And the text handed
to `stoi` is cut out with an end position as its length, which is usually much more than
the line: as long as there is a number on the line, or any other character that is not
white space, `stoi` stops there, but a header that goes on with white space only lets it
run on into the body.  `LengthInHeader` excludes both and nothing else.

What is left to read should be the number in the `Content-Length` field of the header less the
size of the body.  `contentLength` is that number, read from the header alone: the field is a
line of its own, its name is not case-sensitive, and no blank need follow the colon.  The
function takes the number behind the first `"Content-Length: "` there is.  Where this is the
header's own field, the subtraction in `size_t` is right as long as the body is not longer than
the number says, and wraps otherwise; where it is not, the function is right by chance at most.
-/
import Technopark.Net.Http
import Mathlib.Tactic.Push

namespace Technopark.Http

/-! ### What a call should do -/

/-- A buffer with a header and a body. -/
def buffer (header body : Bytes) : Bytes := header ++ headerEnd ++ body

/-- The header ends at the first `"\r\n\r\n"`. -/
def IsHeader (header : Bytes) : Prop :=
  indexOf headerEnd (header ++ headerEnd) = some header.length

instance : DecidablePred IsHeader := fun header =>
  inferInstanceAs (Decidable (indexOf headerEnd (header ++ headerEnd) = some header.length))

/--
Whatever the body, the call throws, or whatever the body, it returns `true` with the same
content length, which is what is left and the body together.
-/
def IgnoresBody (header : Bytes) : Prop :=
  ∀ body₁ body₂ left₁ left₂,
    (buffer header body₁).length < npos → (buffer header body₂).length < npos →
    (∃ e₁ e₂, (parseProtocol (buffer header body₁)).reply left₁ = .error e₁ ∧
      (parseProtocol (buffer header body₂)).reply left₂ = .error e₂) ∨
    ∃ r₁ r₂, (parseProtocol (buffer header body₁)).run left₁ = .ok true r₁ ∧
      (parseProtocol (buffer header body₂)).run left₂ = .ok true r₂ ∧
      sizeT (r₁ + body₁.length) = sizeT (r₂ + body₂.length)

/-- The rest of the header behind the field name at `p`. -/
def fieldRest (header : Bytes) (p : Nat) : Bytes := header.drop (p + fieldName.length)

/--
The header has the field, and either there is something besides white space behind it, or
the position of the end of the line, taken as a length, stops short of the body.
-/
def LengthInHeader (header : Bytes) : Prop :=
  ∃ p, indexOf fieldName header = some p ∧
    ((∃ c ∈ fieldRest header p, ¬ isSpace c) ∨
      ∃ k, indexOf crlf (fieldRest header p ++ headerEnd) = some k ∧
        p + fieldName.length + k ≤ (fieldRest header p).length + headerEnd.length)

/-! ### What a call does -/

section
variable {buf : Bytes} {h p left : Nat}

/-- The text handed to `stoi`. -/
def fieldText (buf : Bytes) (p : Nat) : Bytes :=
  (buf.drop (p + fieldName.length)).take (find buf crlf (p + fieldName.length))

theorem length_headerEnd : headerEnd.length = 4 := by decide

theorem length_fieldName : fieldName.length = 16 := by decide

/-- No end of a header yet. -/
theorem parseProtocol_incomplete (h : indexOf headerEnd buf = none) :
    (parseProtocol buf).run left = .ok false left := by
  have hfind : find buf headerEnd 0 = npos := find_of_none h
  simp [parseProtocol, hfind]

/-- The end of the header is found, and the body is what is behind it. -/
theorem find_headerEnd (hsize : buf.length < npos) (hend : indexOf headerEnd buf = some h) :
    find buf headerEnd 0 ≠ npos ∧
    substr buf (sizeT (find buf headerEnd 0 + 4)) npos = .ok (buf.drop (h + 4)) := by
  have hle := indexOf_le hend
  rw [length_headerEnd] at hle
  have hall : (buf.drop (h + 4)).take npos = buf.drop (h + 4) := by
    rw [List.take_of_length_le]
    rw [List.length_drop]
    omega
  have hbody : sizeT (h + 4) = h + 4 := by
    unfold npos sizeMod at hsize
    exact sizeT_eq (by omega)
  rw [find_start hend, hbody, substr_ok hle, hall]
  exact ⟨by omega, rfl⟩

/-- The field is found, and what is handed to `stoi` starts inside the buffer. -/
theorem find_fieldName (hsize : buf.length < npos) (hfield : indexOf fieldName buf = some p) :
    find buf fieldName 0 ≠ npos ∧
    substr buf (sizeT (find buf fieldName 0 + fieldName.length))
      (find buf crlf (sizeT (find buf fieldName 0 + fieldName.length)))
      = .ok (fieldText buf p) := by
  have hle := indexOf_le hfield
  have hlength : sizeT (p + fieldName.length) = p + fieldName.length := by
    unfold npos sizeMod at hsize
    exact sizeT_eq (by omega)
  have hpos : fieldName.length = 16 := length_fieldName
  rw [find_start hfield, hlength, substr_ok hle]
  exact ⟨by omega, rfl⟩

/-- No field in the buffer. -/
theorem parseProtocol_broken (hsize : buf.length < npos) (hend : indexOf headerEnd buf = some h)
    (hfield : indexOf fieldName buf = none) :
    (parseProtocol buf).run left = .error (.runtimeError "http broken") left := by
  obtain ⟨hfound, hbody⟩ := find_headerEnd hsize hend
  have hmissing : find buf fieldName 0 = npos := find_of_none hfield
  rw [parseProtocol, if_neg hfound, hbody, Call.run_bind_ok (Call.run_ofExcept_ok _ _),
    if_pos hmissing]
  rfl

/-- A header and the field: `stoi` decides. -/
theorem parseProtocol_run (hsize : buf.length < npos) (hend : indexOf headerEnd buf = some h)
    (hfield : indexOf fieldName buf = some p) :
    (parseProtocol buf).run left
      = match stoi (fieldText buf p) with
        | .ok n => .ok true (sizeTSub (sizeTOfInt n) (buf.drop (h + 4)).length)
        | .error e => .error e left := by
  obtain ⟨hfound, hbody⟩ := find_headerEnd hsize hend
  obtain ⟨hfound', htext⟩ := find_fieldName hsize hfield
  rw [parseProtocol, if_neg hfound, hbody, Call.run_bind_ok (Call.run_ofExcept_ok _ _),
    if_neg hfound']
  dsimp only
  rw [htext, Call.run_bind_ok (Call.run_ofExcept_ok _ _)]
  cases hstoi : stoi (fieldText buf p) with
  | error e => rw [Call.run_bind_error (Call.run_ofExcept_error _ _)]
  | ok n =>
      rw [Call.run_bind_ok (Call.run_ofExcept_ok _ _)]
      rfl

theorem parseProtocol_ok (hsize : buf.length < npos) (hend : indexOf headerEnd buf = some h)
    (hfield : indexOf fieldName buf = some p) {n : Int} (hstoi : stoi (fieldText buf p) = .ok n) :
    (parseProtocol buf).run left
      = .ok true (sizeTSub (sizeTOfInt n) (buf.drop (h + 4)).length) := by
  rw [parseProtocol_run hsize hend hfield, hstoi]

theorem parseProtocol_error (hsize : buf.length < npos) (hend : indexOf headerEnd buf = some h)
    (hfield : indexOf fieldName buf = some p) {e : Fault}
    (hstoi : stoi (fieldText buf p) = .error e) :
    (parseProtocol buf).run left = .error e left := by
  rw [parseProtocol_run hsize hend hfield, hstoi]

end

/-! ### Header and body -/

section
variable {header body body₁ body₂ : Bytes} {p k : Nat}

theorem IsHeader.indexOf_buffer (h : IsHeader header) (body : Bytes) :
    indexOf headerEnd (buffer header body) = some header.length := indexOf_append h body

theorem drop_buffer (header body : Bytes) :
    (buffer header body).drop (header.length + 4) = body := by
  rw [buffer, List.drop_left']
  rw [List.length_append, length_headerEnd]

theorem length_buffer (header body : Bytes) :
    (buffer header body).length = header.length + 4 + body.length := by
  rw [buffer, List.length_append, List.length_append, length_headerEnd]

/-- A field in the header is the first one, whatever the body. -/
theorem indexOf_field (hfield : indexOf fieldName header = some p) (body : Bytes) :
    indexOf fieldName (buffer header body) = some p := by
  rw [buffer, List.append_assoc]
  exact indexOf_append hfield _

/-- Without one in the header, the first one is in the body. -/
theorem indexOf_field_body (hfield : indexOf fieldName header = none) (body : Bytes) :
    indexOf fieldName (buffer header body)
      = (indexOf fieldName body).map (· + (header.length + 4)) := by
  have hcr : (13 : UInt8) ∉ fieldName := by decide
  have hlf : (10 : UInt8) ∉ fieldName := by decide
  have hnil : indexOf fieldName [] = none := by decide
  have hsplit : buffer header body
      = header ++ 13 :: ([] ++ 10 :: ([] ++ 13 :: ([] ++ 10 :: body))) := by
    simp [buffer, headerEnd, text]
  rw [hsplit, indexOf_skip hfield hcr, indexOf_skip hnil hlf, indexOf_skip hnil hcr,
    indexOf_skip hnil hlf]
  simp only [Option.map_map, List.length_nil]
  congr 1
  funext i
  simp only [Function.comp_apply]
  omega

/-- The line of the field ends in the header or with it. -/
theorem exists_lineEnd (v : Bytes) : ∃ k, indexOf crlf (v ++ headerEnd) = some k := by
  cases hk : indexOf crlf (v ++ headerEnd) with
  | some k => exact ⟨k, rfl⟩
  | none =>
      refine absurd ?_ (indexOf_eq_none_iff.mp hk)
      have hcrlf : crlf <+: headerEnd := by decide
      exact hcrlf.isInfix.trans (List.suffix_append _ _).isInfix

/-- What is handed to `stoi`, in terms of header and body. -/
theorem fieldText_buffer (hfield : indexOf fieldName header = some p)
    (hk : indexOf crlf (fieldRest header p ++ headerEnd) = some k) (body : Bytes) :
    fieldText (buffer header body) p
      = (fieldRest header p ++ headerEnd ++ body).take (p + fieldName.length + k) := by
  have hle := indexOf_le hfield
  have hdrop : (buffer header body).drop (p + fieldName.length)
      = fieldRest header p ++ headerEnd ++ body := by
    rw [buffer, List.append_assoc, List.drop_append_of_le_length hle, ← List.append_assoc]
    rfl
  have hfind : find (buffer header body) crlf (p + fieldName.length)
      = p + fieldName.length + k := by
    refine find_of_some ?_ ?_
    · rw [length_buffer]
      omega
    · rw [hdrop]
      exact indexOf_append hk body
  rw [fieldText, hdrop, hfind]

/-- **If the length is in the header, `stoi` is not told anything about the body.** -/
theorem stoi_fieldText (hfield : indexOf fieldName header = some p)
    (hk : indexOf crlf (fieldRest header p ++ headerEnd) = some k)
    (hin : (∃ c ∈ fieldRest header p, ¬ isSpace c) ∨
      p + fieldName.length + k ≤ (fieldRest header p).length + headerEnd.length)
    (body₁ body₂ : Bytes) :
    stoi (fieldText (buffer header body₁) p) = stoi (fieldText (buffer header body₂) p) := by
  rw [fieldText_buffer hfield hk, fieldText_buffer hfield hk]
  rcases Nat.lt_or_ge ((fieldRest header p ++ headerEnd).length) (p + fieldName.length + k) with
    hlong | hshort
  · -- the cut reaches the body, so there is something for `stoi` to stop at
    have hseen : ∃ c ∈ fieldRest header p, ¬ isSpace c := by
      refine hin.resolve_right ?_
      rw [List.length_append] at hlong
      omega
    have hstop : ∀ body, stoi ((fieldRest header p ++ headerEnd ++ body).take
        (p + fieldName.length + k)) = stoi (fieldRest header p) := by
      intro body
      rw [List.take_append, List.take_of_length_le hlong.le, List.append_assoc]
      exact stoi_append_cons hseen (by decide)
    rw [hstop, hstop]
  · rw [List.take_append_of_le_length hshort, List.take_append_of_le_length hshort]

/-- What is left and the body together are the content length again. -/
theorem sizeT_left_add (n : Int) {m : Nat} (hm : m < npos) :
    sizeT (sizeTSub (sizeTOfInt n) m + m) = sizeTOfInt n := by
  unfold npos sizeMod at hm
  unfold sizeTSub sizeT sizeTOfInt sizeMod
  omega

theorem ignoresBody_of_lengthInHeader (hheader : IsHeader header)
    (hin : LengthInHeader header) : IgnoresBody header := by
  intro body₁ body₂ left₁ left₂ hsize₁ hsize₂
  obtain ⟨p, hfield, hin⟩ := hin
  obtain ⟨k, hk⟩ := exists_lineEnd (fieldRest header p)
  have hwindow : (∃ c ∈ fieldRest header p, ¬ isSpace c) ∨
      p + fieldName.length + k ≤ (fieldRest header p).length + headerEnd.length := by
    rcases hin with hseen | ⟨k', hk', hshort⟩
    · exact .inl hseen
    · rw [hk] at hk'
      obtain rfl := Option.some.inj hk'
      exact .inr hshort
  have hrun : ∀ body left, (buffer header body).length < npos →
      (parseProtocol (buffer header body)).run left
        = match stoi (fieldText (buffer header body₁) p) with
          | .ok n => .ok true (sizeTSub (sizeTOfInt n) body.length)
          | .error e => .error e left := by
    intro body left hsize
    rw [parseProtocol_run hsize (hheader.indexOf_buffer body) (indexOf_field hfield body),
      drop_buffer, stoi_fieldText hfield hk hwindow body body₁]
  have hrun₁ := hrun body₁ left₁ hsize₁
  have hrun₂ := hrun body₂ left₂ hsize₂
  rw [length_buffer] at hsize₁ hsize₂
  cases hstoi : stoi (fieldText (buffer header body₁) p) with
  | error e =>
      rw [hstoi] at hrun₁ hrun₂
      exact .inl ⟨e, e, Call.reply_error hrun₁, Call.reply_error hrun₂⟩
  | ok n =>
      rw [hstoi] at hrun₁ hrun₂
      refine .inr ⟨_, _, hrun₁, hrun₂, ?_⟩
      rw [sizeT_left_add n (by omega), sizeT_left_add n (by omega)]

/-- A short body fits behind every header. -/
theorem buffer_room (hsize : (header ++ headerEnd).length ≤ ptrdiffMax)
    (hbody : body.length ≤ 32) : (buffer header body).length < npos := by
  rw [buffer, List.length_append]
  unfold ptrdiffMax at hsize
  unfold npos sizeMod
  omega

/-- A body that makes the call return where an empty one makes it throw. -/
theorem not_ignoresBody {e : Fault} (hsize : (buffer header body).length < npos)
    (hthrows : (parseProtocol (buffer header [])).run 0 = .error e 0)
    (hreturns : ∃ r, (parseProtocol (buffer header body)).run 0 = .ok true r) :
    ¬ IgnoresBody header := by
  intro hignores
  obtain ⟨r, hreturns⟩ := hreturns
  have hempty : (buffer header []).length < npos := by
    rw [length_buffer] at hsize ⊢
    exact Nat.lt_of_le_of_lt (by simp) hsize
  rcases hignores [] body 0 0 hempty hsize with ⟨e₁, e₂, -, hthrows₂⟩ | ⟨r₁, r₂, hreturns₁, -⟩
  · rw [Call.reply_ok hreturns] at hthrows₂
    injection hthrows₂
  · rw [hthrows] at hreturns₁
    injection hreturns₁

/-- A header without the field takes one from the body. -/
theorem not_ignoresBody_of_missing (hheader : IsHeader header)
    (hsize : (header ++ headerEnd).length ≤ ptrdiffMax)
    (hfield : indexOf fieldName header = none) : ¬ IgnoresBody header := by
  have hroom : (buffer header (text "Content-Length: 5")).length < npos :=
    buffer_room hsize (by decide)
  have hempty : (buffer header []).length < npos := buffer_room hsize (by decide)
  have hmissing : indexOf fieldName (buffer header []) = none := by
    rw [indexOf_field_body hfield]
    rfl
  have hbody : indexOf fieldName (buffer header (text "Content-Length: 5"))
      = some (header.length + 4) := by
    rw [indexOf_field_body hfield]
    have hzero : indexOf fieldName (text "Content-Length: 5") = some 0 := by decide
    rw [hzero]
    simp
  have hdrop : (buffer header (text "Content-Length: 5")).drop
      (header.length + 4 + fieldName.length) = text "5" := by
    rw [← List.drop_drop, drop_buffer]
    rfl
  have hfive : stoi (fieldText (buffer header (text "Content-Length: 5")) (header.length + 4))
      = .ok 5 := by
    rw [fieldText, hdrop, find_of_none (by rw [hdrop]; decide)]
    rfl
  exact not_ignoresBody hroom
    (parseProtocol_broken hempty (hheader.indexOf_buffer []) hmissing)
    ⟨_, parseProtocol_ok hroom (hheader.indexOf_buffer _) hbody hfive⟩

/-- A field with only white space behind it takes its number from the body. -/
theorem not_ignoresBody_of_blank (hheader : IsHeader header)
    (hsize : (header ++ headerEnd).length ≤ ptrdiffMax)
    (hfield : indexOf fieldName header = some p) (hblank : ∀ c ∈ fieldRest header p, isSpace c)
    (hk : indexOf crlf (fieldRest header p ++ headerEnd) = some k)
    (hlong : (fieldRest header p).length + headerEnd.length < p + fieldName.length + k) :
    ¬ IgnoresBody header := by
  have hroom : (buffer header (text "5")).length < npos := buffer_room hsize (by decide)
  have hempty : (buffer header []).length < npos := buffer_room hsize (by decide)
  have hspace : ∀ c ∈ fieldRest header p ++ headerEnd, isSpace c := by
    intro c hc
    rcases List.mem_append.mp hc with hrest | hend
    · exact hblank c hrest
    · exact List.all_eq_true.mp (by decide : headerEnd.all isSpace = true) c hend
  have htext : ∀ body : Bytes, body.length ≤ 1 →
      fieldText (buffer header body) p = fieldRest header p ++ headerEnd ++ body := by
    intro body hbody
    rw [fieldText_buffer hfield hk, List.take_of_length_le]
    rw [List.length_append, List.length_append]
    omega
  have hnone : stoi (fieldText (buffer header []) p) = .error .invalidArgument := by
    rw [htext [] (by decide), List.append_nil]
    exact stoi_blank hspace
  have hfive : stoi (fieldText (buffer header (text "5")) p) = .ok 5 := by
    rw [htext (text "5") (by decide), stoi_append_of_blank hspace]
    rfl
  exact not_ignoresBody hroom
    (parseProtocol_error hempty (hheader.indexOf_buffer _) (indexOf_field hfield _) hnone)
    ⟨_, parseProtocol_ok hroom (hheader.indexOf_buffer _) (indexOf_field hfield _) hfive⟩

/--
**`parse_protocol` takes the length from the header alone if and only if the header has
the field and either something besides white space follows it there, or the text cut out
for it ends before the body.**
-/
theorem parseProtocol_ignoresBody_iff (header : Bytes) (hheader : IsHeader header)
    (hsize : (header ++ headerEnd).length ≤ ptrdiffMax) :
    IgnoresBody header ↔ LengthInHeader header := by
  constructor
  · intro hignores
    cases hfield : indexOf fieldName header with
    | none => exact absurd hignores (not_ignoresBody_of_missing hheader hsize hfield)
    | some p =>
        refine ⟨p, hfield, ?_⟩
        obtain ⟨k, hk⟩ := exists_lineEnd (fieldRest header p)
        by_cases hseen : ∃ c ∈ fieldRest header p, ¬ isSpace c
        · exact .inl hseen
        · refine .inr ⟨k, hk, ?_⟩
          by_contra hlong
          push Not at hseen
          exact not_ignoresBody_of_blank hheader hsize hfield hseen hk (by omega) hignores
  · exact ignoresBody_of_lengthInHeader hheader

/-- A header with the field and a number. -/
theorem parseProtocol_ignoresBody_five : IgnoresBody (text "Content-Length: 5") :=
  (parseProtocol_ignoresBody_iff (text "Content-Length: 5") (by decide) (by decide)).mpr
    ⟨0, by decide, .inl ⟨53, by decide, by decide⟩⟩

/-- The header `"HTTP/1.1 200 OK"` has no field, and the body `"Content-Length: 5"` supplies it. -/
theorem parseProtocol_reads_body :
    IsHeader (text "HTTP/1.1 200 OK") ∧
    (parseProtocol (text "HTTP/1.1 200 OK\r\n\r\n")).run 0
      = .error (.runtimeError "http broken") 0 ∧
    (parseProtocol (text "HTTP/1.1 200 OK\r\n\r\nContent-Length: 5")).run 0
      = .ok true (2 ^ 64 - 12) ∧
    ¬ IgnoresBody (text "HTTP/1.1 200 OK") := by
  have hthrows : (parseProtocol (text "HTTP/1.1 200 OK\r\n\r\n")).run 0
      = .error (.runtimeError "http broken") 0 := by decide
  have hreturns : (parseProtocol (text "HTTP/1.1 200 OK\r\n\r\nContent-Length: 5")).run 0
      = .ok true (2 ^ 64 - 12) := by decide
  have hsize : (buffer (text "HTTP/1.1 200 OK") (text "Content-Length: 5")).length < npos := by
    decide
  exact ⟨by decide, hthrows, hreturns, not_ignoresBody hsize hthrows ⟨_, hreturns⟩⟩

end

/-! ### What is left to read -/

/-- A letter in lower case. -/
def lower (c : UInt8) : UInt8 := if 65 ≤ c ∧ c ≤ 90 then c + 32 else c

/-- A line of the header starts at `p`, and it is a `Content-Length` field. -/
def IsLength (header : Bytes) (p : Nat) : Prop :=
  (p = 0 ∨ 2 ≤ p ∧ crlf <+: header.drop (p - 2)) ∧
    text "content-length:" <+: (header.drop p).map lower

instance (header : Bytes) : DecidablePred (IsLength header) := fun p =>
  inferInstanceAs (Decidable ((p = 0 ∨ 2 ≤ p ∧ crlf <+: header.drop (p - 2)) ∧
    text "content-length:" <+: (header.drop p).map lower))

/-- Where the first such line starts. -/
def lengthLine (header : Bytes) : Option Nat :=
  (List.range header.length).find? fun p => IsLength header p

/-- What the line that starts at `p` has behind its colon. -/
def lengthValue (header : Bytes) (p : Nat) : Bytes :=
  let rest := (header ++ headerEnd).drop (p + 15)
  rest.take ((indexOf crlf rest).getD 0)

/-- The number in the `Content-Length` field of the header. -/
def contentLength (buf : Bytes) : Option Int := do
  let h ← indexOf headerEnd buf
  let p ← lengthLine (buf.take h)
  (stoi (lengthValue (buf.take h) p)).toOption

/-- How much of the body is there. -/
def bodyLength (buf : Bytes) : Nat :=
  match indexOf headerEnd buf with
  | some h => (buf.drop (h + 4)).length
  | none => 0

/-- What is left of a content length `length` behind a body of `body` bytes. -/
structure Missing (length : Int) (body left : Nat) : Prop where
  nonneg : 0 ≤ length
  /-- Nothing, if the body is longer. -/
  missing : (left : Int) = if (body : Int) ≤ length then length - body else 0
  /-- A difference that has wrapped is larger. -/
  unwrapped : left + body < sizeMod

/-- What is reported is missing by the header. -/
def ReportsMissing (buf : Bytes) (left : Nat) : Prop :=
  ∃ length, contentLength buf = some length ∧ Missing length (bodyLength buf) left

/-- The number behind the first `"Content-Length: "`, wherever in the buffer that is. -/
def Announces (buf : Bytes) (length : Int) : Prop :=
  ∃ p n, indexOf fieldName buf = some p ∧ stoi (fieldText buf p) = .ok n ∧
    (sizeTOfInt n : Int) = length

/--
What is announced is what the header says, and no less than the body; or the header says less
than that, and what is announced happens to be the size of the body.
-/
def WellAnnounced (buf : Bytes) : Prop :=
  ∃ length, contentLength buf = some length ∧
    ((bodyLength buf : Int) ≤ length ∧ Announces buf length ∨
      0 ≤ length ∧ length < bodyLength buf ∧ Announces buf (bodyLength buf))

/-- The first `"Content-Length: "` of the buffer is the field of the header. -/
def FieldFirst (buf : Bytes) : Prop :=
  ∃ h p, indexOf headerEnd buf = some h ∧ indexOf fieldName buf = some p ∧
    lengthLine (buf.take h) = some p

/-- A call that returns `true` has found a header, a field and a number in it. -/
theorem parseProtocol_true {buf : Bytes} {left left' : Nat} (hsize : buf.length < npos)
    (hrun : (parseProtocol buf).run left = .ok true left') :
    ∃ h p length, indexOf headerEnd buf = some h ∧ indexOf fieldName buf = some p ∧
      stoi (fieldText buf p) = .ok length ∧
      left' = sizeTSub (sizeTOfInt length) (buf.drop (h + 4)).length := by
  cases hend : indexOf headerEnd buf with
  | none =>
      rw [parseProtocol_incomplete hend] at hrun
      injection hrun with hfalse
      injection hfalse
  | some h =>
      cases hfield : indexOf fieldName buf with
      | none =>
          rw [parseProtocol_broken hsize hend hfield] at hrun
          injection hrun
      | some p =>
          cases hstoi : stoi (fieldText buf p) with
          | error e =>
              rw [parseProtocol_error hsize hend hfield hstoi] at hrun
              injection hrun
          | ok length =>
              rw [parseProtocol_ok hsize hend hfield hstoi] at hrun
              injection hrun with _ hleft
              exact ⟨h, p, length, rfl, rfl, hstoi, hleft.symm⟩

/-- The difference is what is missing in two cases only. -/
theorem missing_iff {c body : Nat} {length : Int} (hlength : length < 2 ^ 31) (hc : c < sizeMod)
    (hbody : body < sizeMod) :
    Missing length body (sizeTSub c body) ↔
      (body : Int) ≤ length ∧ (c : Int) = length ∨
        0 ≤ length ∧ length < body ∧ (c : Int) = body := by
  have hsub : sizeTSub c body = if body ≤ c then c - body else c + sizeMod - body := by
    unfold sizeTSub sizeT
    unfold sizeMod at hc hbody ⊢
    split <;> omega
  constructor
  · intro h
    obtain ⟨hnonneg, hmissing, hunwrapped⟩ := h
    rw [hsub] at hmissing hunwrapped
    by_cases hle : body ≤ c
    · rw [if_pos hle] at hmissing
      by_cases hfits : (body : Int) ≤ length
      · rw [if_pos hfits] at hmissing
        exact .inl ⟨hfits, by omega⟩
      · rw [if_neg hfits] at hmissing
        exact .inr ⟨hnonneg, by omega, by omega⟩
    · rw [if_neg hle] at hunwrapped
      omega
  · rintro (⟨hfits, heq⟩ | ⟨hnonneg, hshort, heq⟩)
    · have hle : body ≤ c := by omega
      rw [hsub, if_pos hle]
      exact ⟨by omega, by rw [if_pos hfits]; omega, by omega⟩
    · have hle : body ≤ c := by omega
      rw [hsub, if_pos hle]
      exact ⟨hnonneg, by rw [if_neg (by omega)]; omega, by omega⟩

theorem sizeTOfInt_lt (n : Int) : sizeTOfInt n < sizeMod := by
  unfold sizeTOfInt sizeMod
  omega

/-- The content length is an `int`. -/
theorem contentLength_range {buf : Bytes} {length : Int} (h : contentLength buf = some length) :
    -2 ^ 31 ≤ length ∧ length < 2 ^ 31 := by
  unfold contentLength at h
  obtain ⟨i, -, h⟩ := Option.bind_eq_some_iff.mp h
  obtain ⟨p, -, h⟩ := Option.bind_eq_some_iff.mp h
  cases hstoi : stoi (lengthValue (buf.take i) p) with
  | error e =>
      rw [hstoi] at h
      injection h
  | ok n =>
      rw [hstoi] at h
      obtain rfl := Option.some.inj h
      exact stoi_range hstoi

section
variable {header body : Bytes} {p k : Nat}

/-- The value of a field that the function finds, too: a blank and the rest of the line. -/
theorem lengthValue_eq (hfield : indexOf fieldName header = some p)
    (hk : indexOf crlf (fieldRest header p ++ headerEnd) = some k) :
    lengthValue header p = 32 :: (fieldRest header p ++ headerEnd).take k := by
  have hle := indexOf_le hfield
  obtain ⟨-, hstarts, -⟩ := indexOf_eq_some_iff.mp hfield
  obtain ⟨t, ht⟩ := hstarts
  have hrest : (header ++ headerEnd).drop (p + 15) = 32 :: (fieldRest header p ++ headerEnd) := by
    rw [length_fieldName] at hle
    have hdrop : header.drop (p + 15) = 32 :: fieldRest header p := by
      rw [fieldRest, ← List.drop_drop, ← List.drop_drop, ← ht]
      rfl
    rw [List.drop_append_of_le_length (by omega), hdrop, List.cons_append]
  have hblank : ¬ crlf <+: 32 :: (fieldRest header p ++ headerEnd) := by
    intro hcr
    have hhead : crlf = 13 :: [10] := by decide
    rw [hhead, List.cons_prefix_cons] at hcr
    exact absurd hcr.1 (by decide)
  rw [lengthValue, hrest, indexOf_cons, if_neg hblank, hk]
  rfl

/-- **Where the header's own field is found, the number is its number.** -/
theorem stoi_lengthValue (hfield : indexOf fieldName header = some p) {length : Int}
    (hlength : stoi (lengthValue header p) = .ok length) (body : Bytes) :
    stoi (fieldText (buffer header body) p) = .ok length := by
  obtain ⟨k, hk⟩ := exists_lineEnd (fieldRest header p)
  have hsplit := indexOf_split hk
  have hend := indexOf_le hk
  have hcrlf : crlf.length = 2 := by decide
  rw [lengthValue_eq hfield hk] at hlength
  have hblank : ∀ c ∈ [(32 : UInt8)], isSpace c := by
    intro c hc
    rw [List.mem_singleton.mp hc]
    rfl
  have hvalue : stoi ((fieldRest header p ++ headerEnd).take k) = .ok length :=
    (stoi_append_of_blank hblank).symm.trans hlength
  have hseen : ∃ c ∈ (fieldRest header p ++ headerEnd).take k, ¬ isSpace c := by
    by_contra hnone
    push Not at hnone
    rw [stoi_blank hnone] at hvalue
    injection hvalue
  -- the cut goes beyond the end of the line, where `stoi` stops
  have hcut : (fieldRest header p ++ headerEnd ++ body).take (p + fieldName.length + k)
      = (fieldRest header p ++ headerEnd).take k
        ++ (crlf ++ (fieldRest header p ++ headerEnd).drop (k + crlf.length) ++ body).take
          (p + fieldName.length) := by
    have htake : ((fieldRest header p ++ headerEnd).take k).length = k := by
      rw [List.length_take]
      omega
    conv_lhs => rw [hsplit]
    rw [List.append_assoc, List.append_assoc, List.take_append, htake,
      List.take_of_length_le (by omega), List.append_assoc]
    congr 2
    omega
  have hstop : ∃ t, (crlf ++ (fieldRest header p ++ headerEnd).drop (k + crlf.length)
      ++ body).take (p + fieldName.length) = 13 :: t := by
    have hlen : p + fieldName.length = (p + 15) + 1 := by rw [length_fieldName]
    rw [hlen]
    exact ⟨_, rfl⟩
  obtain ⟨t, ht⟩ := hstop
  rw [fieldText_buffer hfield hk, hcut, ht, stoi_append_cons hseen (by decide)]
  exact hvalue

end

theorem FieldFirst.announces {buf : Bytes} (h : FieldFirst buf) {length : Int}
    (hlength : contentLength buf = some length) : Announces buf (sizeTOfInt length) := by
  obtain ⟨i, p, hend, hfield, hline⟩ := h
  have hsplit : buf = buffer (buf.take i) (buf.drop (i + 4)) := by
    have hsplit := indexOf_split hend
    rwa [length_headerEnd] at hsplit
  have hshort : p < (buf.take i).length :=
    List.mem_range.mp (List.mem_of_find?_eq_some hline)
  have hown : indexOf fieldName (buf.take i) = some p := by
    cases hfound : indexOf fieldName (buf.take i) with
    | none =>
        have hbody := indexOf_field_body hfound (buf.drop (i + 4))
        rw [← hsplit, hfield] at hbody
        obtain ⟨j, -, hj⟩ := Option.map_eq_some_iff.mp hbody.symm
        omega
    | some q =>
        have hsame := indexOf_field hfound (buf.drop (i + 4))
        rw [← hsplit, hfield] at hsame
        exact hsame.symm
  have hstoi : stoi (lengthValue (buf.take i) p) = .ok length := by
    simp only [contentLength, hend, hline, Option.bind_eq_bind, Option.bind_some] at hlength
    cases hvalue : stoi (lengthValue (buf.take i) p) with
    | error e =>
        rw [hvalue] at hlength
        injection hlength
    | ok n =>
        rw [hvalue] at hlength
        obtain rfl := Option.some.inj hlength
        rfl
  refine ⟨p, length, hfield, ?_, rfl⟩
  rw [hsplit]
  exact stoi_lengthValue hown hstoi _

/-- A call that returns `true` has one number to go by. -/
theorem Announces.eq {buf : Bytes} {p : Nat} {n length : Int} (h : Announces buf length)
    (hfield : indexOf fieldName buf = some p) (hstoi : stoi (fieldText buf p) = .ok n) :
    (sizeTOfInt n : Int) = length := by
  obtain ⟨q, m, hfield', hstoi', heq⟩ := h
  obtain rfl : p = q := Option.some.inj (hfield.symm.trans hfield')
  obtain rfl : n = m := Except.ok.inj (hstoi.symm.trans hstoi')
  exact heq

/--
**When `parse_protocol` returns `true`, what it reports is what is missing if and only if the
number it found is the one in the header and the body is not longer**, or the body is longer and
the number it found somewhere else is the size of the body.  If it found the header's own field,
it is right if and only if the body is not longer than the field says.
-/
theorem parseProtocol_reportsMissing_iff (buf : Bytes) (left left' : Nat)
    (hsize : buf.length < npos) (hrun : (parseProtocol buf).run left = .ok true left') :
    (ReportsMissing buf left' ↔ WellAnnounced buf) ∧
      (FieldFirst buf → (ReportsMissing buf left' ↔
        ∃ length, contentLength buf = some length ∧ (bodyLength buf : Int) ≤ length)) := by
  obtain ⟨h, p, n, hend, hfield, hstoi, rfl⟩ := parseProtocol_true hsize hrun
  have hbody : (buf.drop (h + 4)).length = bodyLength buf := by rw [bodyLength, hend]
  have hfits : bodyLength buf < sizeMod := by
    rw [← hbody, List.length_drop]
    unfold npos at hsize
    omega
  have hiff : ReportsMissing buf (sizeTSub (sizeTOfInt n) (buf.drop (h + 4)).length) ↔
      WellAnnounced buf := by
    refine exists_congr fun length => and_congr_right fun hlength => ?_
    rw [hbody, missing_iff (contentLength_range hlength).2 (sizeTOfInt_lt n) hfits]
    have hone : ∀ m : Int, Announces buf m ↔ (sizeTOfInt n : Int) = m := fun m =>
      ⟨fun ha => ha.eq hfield hstoi, fun heq => ⟨p, n, hfield, hstoi, heq⟩⟩
    rw [hone, hone]
  refine ⟨hiff, fun hfirst => hiff.trans (exists_congr fun length => and_congr_right ?_)⟩
  intro hlength
  have hannounced := hfirst.announces hlength
  obtain ⟨hmin, hmax⟩ := contentLength_range hlength
  constructor
  · rintro (⟨hle, -⟩ | ⟨hnonneg, hshort, hother⟩)
    · exact hle
    · -- the header's number is not the size of the body
      have heq := (hannounced.eq hfield hstoi).symm.trans (hother.eq hfield hstoi)
      unfold sizeTOfInt sizeMod at heq
      omega
  · intro hle
    have heq : (sizeTOfInt length : Int) = length := by
      unfold sizeTOfInt sizeMod
      omega
    rw [heq] at hannounced
    exact .inl ⟨hle, hannounced⟩

/-- Two of five bytes are there. -/
theorem parseProtocol_reportsMissing_three :
    (ReportsMissing (text "Content-Length: 5\r\n\r\nab") 3 ↔
        WellAnnounced (text "Content-Length: 5\r\n\r\nab")) ∧
      (FieldFirst (text "Content-Length: 5\r\n\r\nab") →
        (ReportsMissing (text "Content-Length: 5\r\n\r\nab") 3 ↔
          ∃ length, contentLength (text "Content-Length: 5\r\n\r\nab") = some length ∧
            (bodyLength (text "Content-Length: 5\r\n\r\nab") : Int) ≤ length)) :=
  parseProtocol_reportsMissing_iff (text "Content-Length: 5\r\n\r\nab") 0 3 (by decide) (by decide)

theorem not_reportsMissing {buf : Bytes} {length : Int} {left : Nat}
    (hlength : contentLength buf = some length)
    (hleft :
      (left : Int) ≠ if (bodyLength buf : Int) ≤ length then length - bodyLength buf else 0) :
    ¬ ReportsMissing buf left := by
  rintro ⟨length', hlength', hmissing⟩
  obtain rfl : length = length' := Option.some.inj (hlength.symm.trans hlength')
  exact hleft hmissing.missing

/--
One byte is announced and two are there: `2 ^ 64 - 1` are said to be missing.  And a field
without a blank behind its colon is passed over for one in the body.
-/
theorem parseProtocol_wraps :
    (parseProtocol (text "Content-Length: 1\r\n\r\nab")).run 0 = .ok true (2 ^ 64 - 1) ∧
    contentLength (text "Content-Length: 1\r\n\r\nab") = some 1 ∧
    bodyLength (text "Content-Length: 1\r\n\r\nab") = 2 ∧
    ¬ ReportsMissing (text "Content-Length: 1\r\n\r\nab") (2 ^ 64 - 1) ∧
    (parseProtocol (text "Content-Length:2\r\n\r\nContent-Length: 40")).run 0 = .ok true 22 ∧
    contentLength (text "Content-Length:2\r\n\r\nContent-Length: 40") = some 2 ∧
    bodyLength (text "Content-Length:2\r\n\r\nContent-Length: 40") = 18 ∧
    ¬ ReportsMissing (text "Content-Length:2\r\n\r\nContent-Length: 40") 22 := by
  have hone : contentLength (text "Content-Length: 1\r\n\r\nab") = some 1 := by decide
  have htwo : contentLength (text "Content-Length:2\r\n\r\nContent-Length: 40") = some 2 := by
    decide
  exact ⟨by decide, hone, by decide, not_reportsMissing hone (by decide), by decide, htwo,
    by decide, not_reportsMissing htwo (by decide)⟩

end Technopark.Http
