/-
`Socket::recv(size_t)` over every way the kernel can cut the stream.

The loop asks for what is still missing, at the offset of what it has.  `Filled` is what
holds whenever it is about to ask: the `r` bytes in the buffer are the first `r` bytes of
the stream, and they are all the calls so far have delivered.  A call that delivers
something keeps that with a larger `r`, so the run can only end with the buffer full or
at the first call that delivers nothing.

The stream may be endless.  It is a `Stream'.Seq`, and `take` and `drop` cut it.
-/
import Technopark.Net.Socket
import Technopark.Lib.Segments
import Mathlib.Data.List.Flatten

namespace Technopark.Socket

/-! ### What a run should do -/

/-- The bytes the calls of a run have delivered, in order. -/
def bytesOf (log : List SysRead) : Bytes := log.flatMap SysRead.chunk

/--
Asked for at least one byte with `position` bytes of the stream gone, `::recv` fails, or
is at the end of the stream, or delivers the next bytes, at least one and no more than
were asked for.
-/
def LawfulRead (stream : Stream'.Seq UInt8) (position : Nat) (call : SysRead) : Prop :=
  0 < call.len →
    call.rc = -1 ∨
    call.rc = 0 ∧ stream.TerminatedAt position ∨
    1 ≤ call.rc ∧ call.rc ≤ call.len ∧
      call.chunk = (stream.drop position).take call.chunk.length

/-- The system call keeps its word in every call a run makes. -/
def LawfulReads (env : RecvResults) (stream : Stream'.Seq UInt8) (bytes : Nat) : Prop :=
  ∀ fuel before call after,
    ((recvBytes env fuel bytes).after ⟨[], []⟩).log = before ++ call :: after →
      LawfulRead stream (bytesOf before).length call

/-- What call number `j` delivers. -/
def chunkAt (env : RecvResults) (j : Nat) : Bytes := (env.delivered j).getD []

/-- Exactly `bytes` bytes come before any `0` or `-1`. -/
def Delivers (env : RecvResults) (bytes : Nat) : Prop :=
  ∃ k, (∀ j < k, chunkAt env j ≠ []) ∧ ((List.range k).flatMap (chunkAt env)).length = bytes

/-- `recv(bytes)` reads the first `bytes` bytes of the stream, or throws. -/
structure ReadsExactly (env : RecvResults) (stream : Stream'.Seq UInt8) (bytes : Nat) : Prop where
  /-- It returns exactly if the bytes come; a count `new` refuses is never asked for. -/
  returns : ∀ fuel, bytes ≤ fuel →
    ((∃ ret s, (recvBytes env fuel bytes).run ⟨[], []⟩ = .ok ret s) ↔
      bytes ≤ ptrdiffMax ∧ Delivers env bytes)
  /-- It returns the first bytes of the stream and consumes no others. -/
  result : ∀ fuel ret s, (recvBytes env fuel bytes).run ⟨[], []⟩ = .ok ret s →
    ret = stream.take bytes ∧ ret.length = bytes ∧ bytesOf s.log = ret
  /-- Another segmentation of the same stream gives the same result. -/
  segmentation : ∀ env' fuel fuel' ret ret' s s', LawfulReads env' stream bytes →
    (recvBytes env fuel bytes).run ⟨[], []⟩ = .ok ret s →
    (recvBytes env' fuel' bytes).run ⟨[], []⟩ = .ok ret' s' → ret = ret'
  /-- Otherwise it throws. -/
  throws : ∀ fuel, bytes ≤ fuel → ¬ (bytes ≤ ptrdiffMax ∧ Delivers env bytes) →
    (recvBytes env fuel bytes).reply ⟨[], []⟩ = .error .badAlloc ∨
    ∃ j, (recvBytes env fuel bytes).reply ⟨[], []⟩
      = .error (.runtimeError ("read failed: " ++ env.strerror j))
  /-- Every write stays inside the buffer, whether or not the run is over. -/
  writes : ∀ fuel, ∀ call ∈ ((recvBytes env fuel bytes).after ⟨[], []⟩).log,
    ∀ i < call.chunk.length, call.offset + i < bytes

/-! ### One call -/

section
variable {env : RecvResults} {stream : Stream'.Seq UInt8} {bytes r fuel : Nat} {s : Inbox}

/-- The call the loop makes with `r` bytes in the buffer. -/
def request (env : RecvResults) (bytes r : Nat) (s : Inbox) : SysRead :=
  ⟨r, bytes - r, env.delivered s.log.length⟩

/-- The state after it, if what it delivers fits. -/
def requested (env : RecvResults) (bytes r : Nat) (s : Inbox) : Inbox where
  log := s.log ++ [request env bytes r s]
  buf := s.buf.take r ++ (chunkAt env s.log.length).map some
    ++ s.buf.drop (r + (chunkAt env s.log.length).length)

@[simp] theorem request_chunk : (request env bytes r s).chunk = chunkAt env s.log.length := rfl

theorem SysRead.rc_of_nil {call : SysRead} (h : call.chunk = []) : call.rc = -1 ∨ call.rc = 0 := by
  obtain ⟨offset, len, delivered⟩ := call
  cases delivered with
  | none => exact .inl rfl
  | some chunk =>
      obtain rfl : chunk = [] := h
      exact .inr rfl

theorem SysRead.rc_of_ne_nil {call : SysRead} (h : call.chunk ≠ []) :
    call.rc = call.chunk.length := by
  obtain ⟨offset, len, delivered⟩ := call
  cases delivered with
  | none => exact absurd rfl h
  | some chunk => rfl

/-- A call that fits into the buffer. -/
theorem sysRecv_run (hfits : r + (chunkAt env s.log.length).length ≤ s.buf.length) :
    (sysRecv env r (bytes - r)).run s = .ok (request env bytes r s).rc
      (requested env bytes r s) := by
  have hle : ¬ s.buf.length < r + (chunkAt env s.log.length).length := by omega
  simp only [chunkAt] at hle
  simp [sysRecv, writeBuf, requested, request, SysRead.chunk, chunkAt, hle]

/-- However the call ends, it is in the log. -/
theorem sysRecv_log :
    ((sysRecv env r (bytes - r)).after s).log = s.log ++ [request env bytes r s] := by
  by_cases hlt : s.buf.length < r + ((env.delivered s.log.length).getD []).length
  · simp [Call.after, sysRecv, writeBuf, SysRead.chunk, request, hlt]
  · simp [Call.after, sysRecv, writeBuf, SysRead.chunk, request, hlt]

/-- The buffer is full: the loop returns. -/
theorem recvBytesLoop_done : (recvBytesLoop env bytes fuel bytes).run s = .ok () s := by
  cases fuel <;> simp [recvBytesLoop]

theorem recvBytesLoop_outOfFuel (hr : r < bytes) :
    (recvBytesLoop env bytes 0 r).run s = .error .outOfFuel s := by
  have hne : r ≠ bytes := by omega
  simp [recvBytesLoop, hne]

/-- A call that delivers nothing. -/
theorem recvBytesLoop_failed (hr : r < bytes) (hmax : bytes ≤ ptrdiffMax)
    (hsize : s.buf.length = bytes) (hchunk : chunkAt env s.log.length = []) :
    (recvBytesLoop env bytes (fuel + 1) r).run s
      = .error (.runtimeError ("read failed: " ++ env.strerror s.log.length))
          ⟨s.log ++ [request env bytes r s], []⟩ := by
  have hne : r ≠ bytes := by omega
  unfold ptrdiffMax at hmax
  have hlen : sizeTSub bytes r = bytes - r := sizeTSub_eq hr.le (by omega)
  have hfits : r + (chunkAt env s.log.length).length ≤ s.buf.length := by
    rw [hchunk, hsize]
    exact hr.le
  have hrc : (request env bytes r s).rc = -1 ∨ (request env bytes r s).rc = 0 :=
    SysRead.rc_of_nil hchunk
  rw [recvBytesLoop, if_pos hne, hlen, Call.run_bind_ok (sysRecv_run hfits), if_pos hrc]
  simp [deleteBuf, requested]

/-- A call that delivers something that fits. -/
theorem recvBytesLoop_step (hr : r < bytes) (hmax : bytes ≤ ptrdiffMax)
    (hsize : s.buf.length = bytes) (hchunk : chunkAt env s.log.length ≠ [])
    (hfits : r + (chunkAt env s.log.length).length ≤ bytes) :
    (recvBytesLoop env bytes (fuel + 1) r).run s
      = (recvBytesLoop env bytes fuel (r + (chunkAt env s.log.length).length)).run
          (requested env bytes r s) := by
  have hne : r ≠ bytes := by omega
  have hpos := List.length_pos_iff.mpr hchunk
  unfold ptrdiffMax at hmax
  have hlen : sizeTSub bytes r = bytes - r := sizeTSub_eq hr.le (by omega)
  have hrc : (request env bytes r s).rc = (chunkAt env s.log.length).length :=
    SysRead.rc_of_ne_nil hchunk
  have hnext : sizeT (r + sizeTOfInt (chunkAt env s.log.length).length)
      = r + (chunkAt env s.log.length).length := by
    rw [sizeTOfInt_natCast (by omega), sizeT_eq (by omega)]
  rw [recvBytesLoop, if_pos hne, hlen, Call.run_bind_ok (sysRecv_run (by omega)), hrc,
    if_neg (by omega), hnext]

/-- Whatever the call returns, a run of one call has it in its log. -/
theorem recvBytesLoop_log (hr : r < bytes) (hmax : bytes ≤ ptrdiffMax) :
    ((recvBytesLoop env bytes 1 r).after s).log = s.log ++ [request env bytes r s] := by
  have hne : r ≠ bytes := by omega
  unfold ptrdiffMax at hmax
  have hlen : sizeTSub bytes r = bytes - r := sizeTSub_eq hr.le (by omega)
  rw [← sysRecv_log, recvBytesLoop, if_pos hne, hlen]
  rcases hcall : (sysRecv env r (bytes - r)).run s with ⟨rc, t⟩ | ⟨e, t⟩
  · rw [Call.after_bind_ok hcall, Call.after_ok hcall]
    split
    · rfl
    · rw [recvBytesLoop]
      split
      · rfl
      · rfl
  · rw [Call.after_error hcall, Call.after_error (Call.run_bind_error hcall)]

/-! ### What holds between two calls -/

/-- The system call keeps its word from here on. -/
def LawfulReadsFrom (env : RecvResults) (stream : Stream'.Seq UInt8) (bytes r : Nat) (s : Inbox) :
    Prop :=
  ∀ fuel before call after,
    ((recvBytesLoop env bytes fuel r).after s).log = before ++ call :: after →
      LawfulRead stream (bytesOf before).length call

/-- The buffer holds the first `r` bytes of the stream, and nothing else was delivered. -/
structure Filled (env : RecvResults) (stream : Stream'.Seq UInt8) (bytes r : Nat) (s : Inbox) :
    Prop where
  le : r ≤ bytes
  size : s.buf.length = bytes
  length : (stream.take r).length = r
  cells : s.buf.take r = (stream.take r).map some
  received : bytesOf s.log = stream.take r
  /-- The calls so far are the first ones of the environment. -/
  delivered : bytesOf s.log = (List.range s.log.length).flatMap (chunkAt env)
  positive : ∀ j < s.log.length, chunkAt env j ≠ []
  writes : ∀ call ∈ s.log, call.offset + call.chunk.length ≤ bytes

/-- The next call delivers nothing, or the next bytes of the stream. -/
theorem LawfulReadsFrom.next (h : LawfulReadsFrom env stream bytes r s) (hr : r < bytes)
    (hmax : bytes ≤ ptrdiffMax) (hlen : (bytesOf s.log).length = r) :
    chunkAt env s.log.length = [] ∨
    chunkAt env s.log.length ≠ [] ∧ r + (chunkAt env s.log.length).length ≤ bytes ∧
      chunkAt env s.log.length = (stream.drop r).take (chunkAt env s.log.length).length := by
  have hlawful := h 1 s.log (request env bytes r s) [] (recvBytesLoop_log hr hmax)
  rw [hlen] at hlawful
  by_cases hchunk : chunkAt env s.log.length = []
  · exact .inl hchunk
  · have hpos := List.length_pos_iff.mpr hchunk
    have hrc : (request env bytes r s).rc = (chunkAt env s.log.length).length :=
      SysRead.rc_of_ne_nil hchunk
    have hasked : (request env bytes r s).len = bytes - r := rfl
    rcases hlawful (by omega) with hfail | ⟨hzero, -⟩ | ⟨-, hle, hnext⟩
    · omega
    · omega
    · exact .inr ⟨hchunk, by omega, hnext⟩

theorem LawfulReadsFrom.step (h : LawfulReadsFrom env stream bytes r s) (hr : r < bytes)
    (hmax : bytes ≤ ptrdiffMax) (hsize : s.buf.length = bytes)
    (hchunk : chunkAt env s.log.length ≠ [])
    (hfits : r + (chunkAt env s.log.length).length ≤ bytes) :
    LawfulReadsFrom env stream bytes (r + (chunkAt env s.log.length).length)
      (requested env bytes r s) := by
  intro fuel before call after hlog
  refine h (fuel + 1) before call after ?_
  rw [Call.after, recvBytesLoop_step hr hmax hsize hchunk hfits]
  exact hlog

/-- A call that delivers the next bytes. -/
theorem Filled.step (h : Filled env stream bytes r s) (hchunk : chunkAt env s.log.length ≠ [])
    (hfits : r + (chunkAt env s.log.length).length ≤ bytes)
    (hnext : chunkAt env s.log.length = (stream.drop r).take (chunkAt env s.log.length).length) :
    Filled env stream bytes (r + (chunkAt env s.log.length).length) (requested env bytes r s) := by
  have hsize := h.size
  have htake : stream.take (r + (chunkAt env s.log.length).length)
      = stream.take r ++ chunkAt env s.log.length := by
    rw [take_add_stream, ← hnext]
  have hbytes : bytesOf (requested env bytes r s).log
      = bytesOf s.log ++ chunkAt env s.log.length := by
    simp [bytesOf, requested]
  have hstarts : (s.buf.take r ++ (chunkAt env s.log.length).map some).length
      = r + (chunkAt env s.log.length).length := by
    simp only [List.length_append, List.length_take, List.length_map]
    omega
  refine ⟨hfits, ?_, ?_, ?_, ?_, ?_, ?_, ?_⟩
  · rw [requested, List.length_append, hstarts, List.length_drop]
    omega
  · rw [htake, List.length_append, h.length]
  · rw [requested, List.take_left' hstarts, h.cells, htake, List.map_append]
  · rw [hbytes, htake, h.received]
  · rw [hbytes, h.delivered]
    simp [requested, List.range_succ]
  · intro j hj
    rw [requested, List.length_append] at hj
    rcases Nat.lt_succ_iff_lt_or_eq.mp hj with hlt | rfl
    · exact h.positive j hlt
    · exact hchunk
  · intro call hcall
    rw [requested, List.mem_append, List.mem_singleton] at hcall
    rcases hcall with hold | rfl
    · exact h.writes call hold
    · exact hfits

/-- A call that delivers nothing before the buffer is full: the bytes do not come. -/
theorem Filled.not_delivers (h : Filled env stream bytes r s) (hr : r < bytes)
    (hchunk : chunkAt env s.log.length = []) : ¬ Delivers env bytes := by
  rintro ⟨k, hpos, hk⟩
  have hle : k ≤ s.log.length := by
    by_contra hlt
    exact hpos s.log.length (by omega) hchunk
  have hsub := ((List.range_sublist.mpr hle).flatMap (chunkAt env)).length_le
  rw [← h.delivered, h.received, h.length] at hsub
  omega

/-- **The loop fills the buffer, or throws at the first call that delivers nothing.** -/
theorem Filled.run (hmax : bytes ≤ ptrdiffMax) :
    ∀ (fuel r : Nat) (s : Inbox), Filled env stream bytes r s →
      LawfulReadsFrom env stream bytes r s →
      (∃ t, (recvBytesLoop env bytes fuel r).run s = .ok () t ∧
        Filled env stream bytes bytes t) ∨
      ∃ e t, (recvBytesLoop env bytes fuel r).run s = .error e t ∧
        (∀ call ∈ t.log, call.offset + call.chunk.length ≤ bytes) ∧
        (e = .outOfFuel ∧ fuel < bytes - r ∨
          ¬ Delivers env bytes ∧ ∃ j, e = .runtimeError ("read failed: " ++ env.strerror j)) := by
  intro fuel
  induction fuel with
  | zero =>
      intro r s h _
      rcases Nat.lt_or_eq_of_le h.le with hr | rfl
      · exact .inr ⟨_, _, recvBytesLoop_outOfFuel hr, h.writes, .inl ⟨rfl, by omega⟩⟩
      · exact .inl ⟨s, recvBytesLoop_done, h⟩
  | succ fuel ih =>
      intro r s h hlawful
      rcases Nat.lt_or_eq_of_le h.le with hr | rfl
      · have hlen : (bytesOf s.log).length = r := by rw [h.received, h.length]
        rcases hlawful.next hr hmax hlen with hnil | ⟨hchunk, hfits, hnext⟩
        · refine .inr ⟨_, _, recvBytesLoop_failed hr hmax h.size hnil, ?_, .inr ⟨?_, _, rfl⟩⟩
          · intro call hcall
            rw [List.mem_append, List.mem_singleton] at hcall
            rcases hcall with hold | rfl
            · exact h.writes call hold
            · rw [request_chunk, hnil]
              exact hr.le
          · exact h.not_delivers hr hnil
        · have hpos := List.length_pos_iff.mpr hchunk
          rw [recvBytesLoop_step hr hmax h.size hchunk hfits]
          rcases ih _ _ (h.step hchunk hfits hnext)
            (hlawful.step hr hmax h.size hchunk hfits) with hok | ⟨e, t, hrun, hwrites, hend⟩
          · exact .inl hok
          · refine .inr ⟨e, t, hrun, hwrites, ?_⟩
            rcases hend with ⟨hfuel, hlt⟩ | hfail
            · exact .inl ⟨hfuel, by omega⟩
            · exact .inr hfail
      · exact .inl ⟨s, recvBytesLoop_done, h⟩

end

/-! ### Whole runs -/

section
variable {env : RecvResults} {stream : Stream'.Seq UInt8} {bytes fuel : Nat}

/-- The state behind `new char[bytes]`. -/
def allocated (bytes : Nat) : Inbox := ⟨[], List.replicate bytes none⟩

theorem recvBytes_refused (h : ptrdiffMax < bytes) :
    (recvBytes env fuel bytes).run ⟨[], []⟩ = .error .badAlloc ⟨[], []⟩ := by
  simp [recvBytes, newBuf, h]

theorem newBuf_run (h : bytes ≤ ptrdiffMax) :
    (newBuf bytes).run ⟨[], []⟩ = .ok () (allocated bytes) := by
  simp [newBuf, allocated, Nat.not_lt.mpr h]

theorem allocated_filled : Filled env stream bytes 0 (allocated bytes) := by
  refine ⟨Nat.zero_le _, by simp [allocated], by simp, by simp, by simp [allocated, bytesOf],
    by simp [allocated, bytesOf], by simp [allocated], by simp [allocated]⟩

/-- A full buffer makes the string. -/
theorem Filled.stringOfBuf_run {t : Inbox} (h : Filled env stream bytes bytes t) :
    (stringOfBuf bytes).run t = .ok (stream.take bytes) t := by
  have hle : ¬ t.buf.length < bytes := by rw [h.size]; exact Nat.lt_irrefl _
  have hcells : ((stream.take bytes).map some).mapM id = some (stream.take bytes) := by
    rw [List.mapM_map]
    exact (List.mapM_pure (m := Option) (f := id)).trans (by simp)
  simp [stringOfBuf, hle, h.cells, hcells]

theorem stringOfBuf_after (t : Inbox) : (stringOfBuf bytes).after t = t := by
  by_cases hlt : t.buf.length < bytes
  · simp [Call.after, stringOfBuf, hlt]
  · cases hcells : (t.buf.take bytes).mapM id with
    | none => simp [Call.after, stringOfBuf, hlt, hcells]
    | some ret => simp [Call.after, stringOfBuf, hlt, hcells]

/-- Making the string and freeing the buffer make no system call. -/
theorem recvBytes_log (h : bytes ≤ ptrdiffMax) :
    ((recvBytes env fuel bytes).after ⟨[], []⟩).log
      = ((recvBytesLoop env bytes fuel 0).after (allocated bytes)).log := by
  rw [recvBytes, Call.after_bind_ok (newBuf_run h)]
  rcases hloop : (recvBytesLoop env bytes fuel 0).run (allocated bytes) with ⟨_, t⟩ | ⟨e, t⟩
  · rw [Call.after_bind_ok hloop, Call.after_ok hloop]
    have hsame : (stringOfBuf bytes).after t = t := stringOfBuf_after t
    rcases hstring : (stringOfBuf bytes).run t with ⟨ret, u⟩ | ⟨e, u⟩
    · rw [Call.after_ok hstring] at hsame
      rw [Call.after_bind_ok hstring, hsame]
      rfl
    · rw [Call.after_error hstring] at hsame
      rw [Call.after_error (Call.run_bind_error hstring), hsame]
  · rw [Call.after_error hloop, Call.after_error (Call.run_bind_error hloop)]

theorem LawfulReads.start (h : LawfulReads env stream bytes) (hmax : bytes ≤ ptrdiffMax) :
    LawfulReadsFrom env stream bytes 0 (allocated bytes) := by
  intro fuel before call after hlog
  rw [← recvBytes_log hmax] at hlog
  exact h fuel before call after hlog

/-- The run after a loop that has filled the buffer. -/
theorem recvBytes_full (hmax : bytes ≤ ptrdiffMax) {t : Inbox}
    (hrun : (recvBytesLoop env bytes fuel 0).run (allocated bytes) = .ok () t)
    (h : Filled env stream bytes bytes t) :
    (recvBytes env fuel bytes).run ⟨[], []⟩ = .ok (stream.take bytes) ⟨t.log, []⟩ := by
  rw [recvBytes, Call.run_bind_ok (newBuf_run hmax), Call.run_bind_ok hrun,
    Call.run_bind_ok h.stringOfBuf_run]
  rfl

theorem recvBytes_error (hmax : bytes ≤ ptrdiffMax) {e : Fault} {t : Inbox}
    (hrun : (recvBytesLoop env bytes fuel 0).run (allocated bytes) = .error e t) :
    (recvBytes env fuel bytes).run ⟨[], []⟩ = .error e t := by
  rw [recvBytes, Call.run_bind_ok (newBuf_run hmax), Call.run_bind_error hrun]

/-- The ways a run can end. -/
theorem recvBytes_ends (hlawful : LawfulReads env stream bytes) (fuel : Nat) :
    (∃ t, (recvBytes env fuel bytes).run ⟨[], []⟩ = .ok (stream.take bytes) ⟨t.log, []⟩ ∧
      bytes ≤ ptrdiffMax ∧ Filled env stream bytes bytes t) ∨
    ∃ e t, (recvBytes env fuel bytes).run ⟨[], []⟩ = .error e t ∧
      (∀ call ∈ t.log, call.offset + call.chunk.length ≤ bytes) ∧
      (e = .outOfFuel ∧ fuel < bytes ∨
        ¬ (bytes ≤ ptrdiffMax ∧ Delivers env bytes) ∧
          (e = .badAlloc ∨ ∃ j, e = .runtimeError ("read failed: " ++ env.strerror j))) := by
  rcases Nat.lt_or_ge ptrdiffMax bytes with hbig | hmax
  · exact .inr ⟨_, _, recvBytes_refused hbig, by simp, .inr ⟨by omega, .inl rfl⟩⟩
  · rcases Filled.run hmax fuel 0 _ allocated_filled (hlawful.start hmax) with
      ⟨t, hrun, hfull⟩ | ⟨e, t, hrun, hwrites, hend⟩
    · exact .inl ⟨t, recvBytes_full hmax hrun hfull, hmax, hfull⟩
    · refine .inr ⟨e, t, recvBytes_error hmax hrun, hwrites, ?_⟩
      rcases hend with ⟨hfuel, hlt⟩ | ⟨hno, hthrown⟩
      · exact .inl ⟨hfuel, hlt⟩
      · exact .inr ⟨fun hall => hno hall.2, .inr hthrown⟩

/-- A full buffer: its calls have delivered the bytes. -/
theorem Filled.delivers {t : Inbox} (h : Filled env stream bytes bytes t) : Delivers env bytes := by
  refine ⟨t.log.length, h.positive, ?_⟩
  rw [← h.delivered, h.received, h.length]

/-- What a run that returns has returned. -/
theorem recvBytes_ok (hlawful : LawfulReads env stream bytes) {ret : Bytes} {s : Inbox}
    (hrun : (recvBytes env fuel bytes).run ⟨[], []⟩ = .ok ret s) :
    ret = stream.take bytes ∧ ret.length = bytes ∧ bytesOf s.log = ret ∧
      bytes ≤ ptrdiffMax ∧ Delivers env bytes := by
  rcases recvBytes_ends hlawful fuel with ⟨t, hok, hmax, hfull⟩ | ⟨e, t, herror, -⟩
  · rw [hok] at hrun
    injection hrun with hret hs
    subst hret hs
    exact ⟨rfl, hfull.length, hfull.received, hmax, hfull.delivers⟩
  · rw [herror] at hrun
    injection hrun

/--
**`Socket::recv(bytes)` returns the first `bytes` bytes of the stream if they come before
any `0` or `-1`, and throws otherwise.**
-/
theorem recvBytes_readsExactly (env : RecvResults) (stream : Stream'.Seq UInt8) (bytes : Nat)
    (hlawful : LawfulReads env stream bytes) : ReadsExactly env stream bytes := by
  refine ⟨?_, ?_, ?_, ?_, ?_⟩
  · intro fuel hfuel
    constructor
    · rintro ⟨ret, s, hrun⟩
      exact (recvBytes_ok hlawful hrun).2.2.2
    · intro hcome
      rcases recvBytes_ends hlawful fuel with ⟨t, hok, -⟩ | ⟨e, t, -, -, ⟨-, hlt⟩ | ⟨hno, -⟩⟩
      · exact ⟨_, _, hok⟩
      · omega
      · exact absurd hcome hno
  · intro fuel ret s hrun
    obtain ⟨hret, hlen, hlog, -⟩ := recvBytes_ok hlawful hrun
    exact ⟨hret, hlen, hlog⟩
  · intro env' fuel fuel' ret ret' s s' hlawful' hrun hrun'
    rw [(recvBytes_ok hlawful hrun).1, (recvBytes_ok hlawful' hrun').1]
  · intro fuel hfuel hno
    rcases recvBytes_ends hlawful fuel with
      ⟨t, -, hmax, hfull⟩ | ⟨e, t, herror, -, ⟨-, hlt⟩ | ⟨-, rfl | ⟨j, rfl⟩⟩⟩
    · exact absurd ⟨hmax, hfull.delivers⟩ hno
    · omega
    · exact .inl (Call.reply_error herror)
    · exact .inr ⟨j, Call.reply_error herror⟩
  · intro fuel call hcall i hi
    rcases recvBytes_ends hlawful fuel with ⟨t, hok, -, hfull⟩ | ⟨e, t, herror, hwrites, -⟩
    · rw [Call.after_ok hok] at hcall
      have := hfull.writes call hcall
      omega
    · rw [Call.after_error herror] at hcall
      have := hwrites call hcall
      omega

/-- A kernel that delivers `"a"` and then `"bc"`. -/
def twoPieces : RecvResults where
  delivered := fun j => if j = 0 then some [97] else some [98, 99]
  strerror := fun _ => ""

private theorem twoPieces_log (fuel : Nat) :
    ((recvBytes twoPieces fuel 3).after ⟨[], []⟩).log
      <+: [⟨0, 3, some [97]⟩, ⟨1, 2, some [98, 99]⟩] := by
  match fuel with
  | 0 => decide
  | 1 => decide
  | n + 2 =>
      have hrun : (recvBytes twoPieces (n + 2) 3).after ⟨[], []⟩
          = ⟨[⟨0, 3, some [97]⟩, ⟨1, 2, some [98, 99]⟩], []⟩ := by
        cases n <;> rfl
      exact ⟨[], by simp [hrun]⟩

private theorem twoPieces_lawful :
    LawfulReads twoPieces (Stream'.Seq.ofList [97, 98, 99, 100]) 3 := by
  intro fuel before call after hlog
  have hstarts := twoPieces_log fuel
  rw [hlog] at hstarts
  match before with
  | [] =>
      obtain rfl := (List.cons_prefix_cons.mp hstarts).1
      exact fun _ => .inr (.inr ⟨by decide, by decide, rfl⟩)
  | [first] =>
      obtain ⟨rfl, hrest⟩ := List.cons_prefix_cons.mp hstarts
      obtain rfl := (List.cons_prefix_cons.mp hrest).1
      exact fun _ => .inr (.inr ⟨by decide, by decide, rfl⟩)
  | _ :: _ :: _ =>
      have hle := hstarts.length_le
      simp at hle

/-- Three bytes of a longer stream, in two pieces. -/
theorem recvBytes_readsExactly_abc :
    ReadsExactly twoPieces (Stream'.Seq.ofList [97, 98, 99, 100]) 3 ∧
    (recvBytes twoPieces 3 3).reply ⟨[], []⟩ = .ok [97, 98, 99] :=
  ⟨recvBytes_readsExactly _ _ _ twoPieces_lawful, rfl⟩

end

end Technopark.Socket
