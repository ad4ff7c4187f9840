/-
`Socket::send` over every way the kernel can split the transfer.

The offset of a call is the result of the call before it, not the number of bytes
sent so far.  For the first two calls the two are the same.  From the third on they
are not, so a run that has a third range accepted can only be right by never
returning: some call has to fail while bytes are still left.  `FailsEarly` is that,
and with the runs of at most two calls it is the exact condition.

A run is followed call by call, one `sendLoop_step` at a time.  What is subtracted
from `left` is what the log says was accepted, so `left` wraps exactly when the log
adds up to more than the string.
-/
import Technopark.Net.Socket
import Technopark.Lib.Segments
import Mathlib.Tactic.Push

namespace Technopark.Socket

/-! ### What a run should do -/

/-- The ranges the kernel has accepted, in order. -/
def accepted (w : Wire) : List (Nat × Nat) :=
  w.log.filterMap fun call =>
    if call.result = -1 then none else some (call.offset, call.result.toNat)

/-- How many bytes have been taken off `left`. -/
def acceptedBytes (w : Wire) : Nat := ((accepted w).map Prod.snd).sum

/-- `::send` fails, or accepts at least one of the bytes and no more than there are. -/
def LawfulCall (call : SysSend) : Prop :=
  0 < call.len → call.result = -1 ∨ 1 ≤ call.result ∧ call.result ≤ call.len

instance : DecidablePred LawfulCall := fun call =>
  inferInstanceAs (Decidable
    (0 < call.len → call.result = -1 ∨ 1 ≤ call.result ∧ call.result ≤ call.len))

/-- The system call keeps its word in every call a run makes. -/
def LawfulRun (env : SendResults) (str : Bytes) : Prop :=
  ∀ fuel, ∀ call ∈ ((send env fuel str).after ⟨[]⟩).log, LawfulCall call

/-- The whole string goes out exactly once. -/
structure TransmitsOnce (env : SendResults) (str : Bytes) : Prop where
  /-- A run that returns has sent the string, every byte once and in order. -/
  sent : ∀ fuel w, (send env fuel str).run ⟨[]⟩ = .ok () w →
    Tiles 0 (accepted w) str.length ∧ copied str (accepted w) = str
  /-- `left` never wraps. -/
  left : ∀ fuel, acceptedBytes ((send env fuel str).after ⟨[]⟩) ≤ str.length
  /-- The run is over after at most `str.size()` system calls. -/
  ends : (send env str.length str).reply ⟨[]⟩ ≠ .error .outOfFuel

/-- From call `j` on, a call fails while some of the `left` bytes have not been accepted. -/
inductive FailsEarly (result : Nat → Int) : Nat → Nat → Prop
  | now {j left : Nat} : 0 < left → result j = -1 → FailsEarly result j left
  | later {j left k : Nat} : result j = k → k < left → FailsEarly result (j + 1) (left - k) →
      FailsEarly result j left

/-- The transfer takes at most two calls, or fails early. -/
def ShortTransfer (result : Nat → Int) (size : Nat) : Prop :=
  size = 0 ∨ result 0 = size ∨ result 0 + result 1 = size ∨ FailsEarly result 0 size

/-! ### One call -/

section
variable {env : SendResults} {size left sent fuel : Nat} {w : Wire}

theorem accepted_append (w : Wire) (offset len k : Nat) :
    accepted ⟨w.log ++ [⟨offset, len, k⟩]⟩ = accepted w ++ [(offset, k)] := by
  have hk : (k : Int) ≠ -1 := by omega
  simp [accepted, hk]

theorem acceptedBytes_append (w : Wire) (offset len k : Nat) :
    acceptedBytes ⟨w.log ++ [⟨offset, len, k⟩]⟩ = acceptedBytes w + k := by
  simp [acceptedBytes, accepted_append]

theorem acceptedBytes_failed (w : Wire) (offset len : Nat) :
    acceptedBytes ⟨w.log ++ [⟨offset, len, -1⟩]⟩ = acceptedBytes w := by
  simp [acceptedBytes, accepted]

/-- Nothing left: the loop returns. -/
theorem sendLoop_done (sent : Int) : (sendLoop env size fuel 0 sent).run w = .ok () w := by
  cases fuel <;> simp [sendLoop]

/-- A call that does not fail, whatever it returned. -/
theorem sendLoop_call (hsize : size < 2 ^ 63) (hleft : 0 < left) (hsent : sent ≤ size)
    (hne : env.result w.log.length ≠ -1) :
    (sendLoop env size (fuel + 1) left sent).run w
      = (sendLoop env size fuel (sizeTSub left (sizeTOfInt (env.result w.log.length)))
          (env.result w.log.length)).run
          ⟨w.log ++ [⟨sent, size - sent, env.result w.log.length⟩]⟩ := by
  have hoffset : sizeTOfInt sent = sent := sizeTOfInt_natCast (by omega)
  have hlen : sizeTSub size sent = size - sent := sizeTSub_eq hsent (by omega)
  simp [sendLoop, sysSend, hleft, hne, hoffset, hlen]

/-- A call that accepts bytes. -/
theorem sendLoop_step (hsize : size < 2 ^ 63) (hleft : 0 < left) (hsent : sent ≤ size) {k : Nat}
    (hk : env.result w.log.length = k) (hkmax : k < 2 ^ 64) :
    (sendLoop env size (fuel + 1) left sent).run w
      = (sendLoop env size fuel (sizeTSub left k) k).run
          ⟨w.log ++ [⟨sent, size - sent, k⟩]⟩ := by
  rw [sendLoop_call hsize hleft hsent (by omega), hk, sizeTOfInt_natCast hkmax]

/-- A call that fails ends the run. -/
theorem sendLoop_failed (hsize : size < 2 ^ 63) (hleft : 0 < left) (hsent : sent ≤ size)
    (hfail : env.result w.log.length = -1) :
    (sendLoop env size (fuel + 1) left sent).run w
      = .error (.runtimeError ("write failed: " ++ env.strerror w.log.length))
          ⟨w.log ++ [⟨sent, size - sent, -1⟩]⟩ := by
  have hoffset : sizeTOfInt sent = sent := sizeTOfInt_natCast (by omega)
  have hlen : sizeTSub size sent = size - sent := sizeTSub_eq hsent (by omega)
  simp [sendLoop, sysSend, hleft, hfail, hoffset, hlen]

/-- No more calls allowed. -/
theorem sendLoop_outOfFuel (hleft : 0 < left) (sent : Int) :
    (sendLoop env size 0 left sent).run w = .error .outOfFuel w := by
  simp [sendLoop, hleft]

/-! ### Runs of the loop -/

/-- The system call keeps its word from a state of the loop on. -/
def LawfulFrom (env : SendResults) (size left sent : Nat) (w : Wire) : Prop :=
  ∀ fuel, ∀ call ∈ ((sendLoop env size fuel left sent).after w).log, LawfulCall call

/-- The next call fails or accepts some of the bytes it was given. -/
theorem LawfulFrom.next (h : LawfulFrom env size left sent w) (hsize : size < 2 ^ 63)
    (hleft : 0 < left) (hsent : sent < size) :
    env.result w.log.length = -1 ∨
      ∃ k : Nat, env.result w.log.length = k ∧ 1 ≤ k ∧ k ≤ size - sent := by
  by_cases hfail : env.result w.log.length = -1
  · exact .inl hfail
  have hmem : ⟨sent, size - sent, env.result w.log.length⟩
      ∈ ((sendLoop env size 1 left sent).after w).log := by
    rw [Call.after, sendLoop_call hsize hleft (Nat.le_of_lt hsent) hfail]
    by_cases hdone : sizeTSub left (sizeTOfInt (env.result w.log.length)) = 0
    · rw [hdone, sendLoop_done]
      simp
    · rw [sendLoop_outOfFuel (Nat.pos_of_ne_zero hdone)]
      simp
  have hlawful := h 1 _ hmem (show 0 < size - sent by omega)
  obtain ⟨hpos, hle⟩ := hlawful.resolve_left hfail
  simp only at hpos hle
  exact .inr ⟨(env.result w.log.length).toNat, by omega, by omega, by omega⟩

/-- It also keeps it from the state after that call. -/
theorem LawfulFrom.step (h : LawfulFrom env size left sent w) (hsize : size < 2 ^ 63)
    (hleft : 0 < left) (hsent : sent ≤ size) {k : Nat} (hk : env.result w.log.length = k)
    (hkmax : k < 2 ^ 64) :
    LawfulFrom env size (sizeTSub left k) k ⟨w.log ++ [⟨sent, size - sent, k⟩]⟩ := by
  intro fuel call hcall
  refine h (fuel + 1) call ?_
  rw [Call.after, sendLoop_step hsize hleft hsent hk hkmax]
  exact hcall

/-- A run that fails early never returns, never has too much accepted, and soon ends. -/
theorem FailsEarly.run (hsize : size < 2 ^ 63) {j : Nat} (h : FailsEarly env.result j left) :
    ∀ (sent fuel : Nat) (w : Wire), w.log.length = j → sent < size →
      acceptedBytes w + left = size → LawfulFrom env size left sent w →
      ∃ e w', (sendLoop env size fuel left sent).run w = .error e w' ∧
        acceptedBytes w' ≤ size ∧ (left ≤ fuel → e ≠ .outOfFuel) := by
  induction h with
  | @now j left hleft hfail =>
      intro sent fuel w hj hsent htotal hlawful
      subst hj
      cases fuel with
      | zero => exact ⟨_, _, sendLoop_outOfFuel hleft sent, by omega, by omega⟩
      | succ fuel =>
          refine ⟨_, _, sendLoop_failed hsize hleft (by omega) hfail, ?_, by simp⟩
          rw [acceptedBytes_failed]
          omega
  | @later j left k hk hlt _ ih =>
      intro sent fuel w hj hsent htotal hlawful
      subst hj
      cases fuel with
      | zero => exact ⟨_, _, sendLoop_outOfFuel (by omega) sent, by omega, by omega⟩
      | succ fuel =>
          have hpos : 1 ≤ k := by
            rcases hlawful.next hsize (by omega) hsent with hfail | ⟨k', hk', hpos, -⟩ <;> omega
          have hnext := hlawful.step hsize (by omega) (by omega) hk (by omega)
          rw [sendLoop_step hsize (by omega) (by omega) hk (by omega)]
          rw [sizeTSub_eq (by omega) (by omega)] at hnext ⊢
          obtain ⟨e, w', hrun, hbytes, hends⟩ := ih k fuel ⟨w.log ++ [⟨sent, size - sent, k⟩]⟩
            (by simp) (by omega) (by rw [acceptedBytes_append]; omega) hnext
          exact ⟨e, w', hrun, hbytes, fun hle => hends (by omega)⟩

/-- A run that does not fail early makes another call, and then returns or wraps `left`. -/
theorem returns_or_wraps (hsize : size < 2 ^ 63) :
    ∀ (left sent : Nat) (w : Wire), 0 < left → ¬ FailsEarly env.result w.log.length left →
      sent < size → acceptedBytes w + left = size → LawfulFrom env size left sent w →
      ∃ (fuel : Nat) (w' : Wire) (k : Nat) (rest : List SysSend),
        w'.log = w.log ++ ⟨sent, size - sent, k⟩ :: rest ∧
        ((sendLoop env size fuel left sent).run w = .ok () w' ∨
          (sendLoop env size fuel left sent).after w = w' ∧ size < acceptedBytes w') := by
  intro left
  induction left using Nat.strong_induction_on with
  | _ left ih =>
      intro sent w hleft hno hsent htotal hlawful
      obtain ⟨k, hk, hpos, hkle⟩ :
          ∃ k : Nat, env.result w.log.length = k ∧ 1 ≤ k ∧ k ≤ size - sent := by
        refine (hlawful.next hsize hleft hsent).resolve_left ?_
        intro hfail
        exact hno (.now hleft hfail)
      have hstep : ∀ fuel, (sendLoop env size (fuel + 1) left sent).run w
          = (sendLoop env size fuel (sizeTSub left k) k).run
              ⟨w.log ++ [⟨sent, size - sent, k⟩]⟩ :=
        fun fuel => sendLoop_step hsize hleft (by omega) hk (by omega)
      rcases Nat.lt_trichotomy k left with hlt | rfl | hgt
      · -- bytes are left, and it still does not fail early
        have hnext := hlawful.step hsize hleft (by omega) hk (by omega)
        rw [sizeTSub_eq (by omega) (by omega)] at hnext
        obtain ⟨fuel, w', k', rest, hlog, hend⟩ := ih (left - k) (by omega) k
          ⟨w.log ++ [⟨sent, size - sent, k⟩]⟩ (by omega)
          (fun hfails => hno (.later hk hlt (by simpa using hfails))) (by omega)
          (by rw [acceptedBytes_append]; omega) hnext
        refine ⟨fuel + 1, w', k, _, by rw [hlog]; simp; rfl, ?_⟩
        rw [Call.after, hstep, sizeTSub_eq (by omega) (by omega)]
        exact hend
      · -- the loop is told that everything has gone out
        refine ⟨1, _, k, [], rfl, .inl ?_⟩
        rw [hstep, sizeTSub_eq (by omega) (by omega), Nat.sub_self, sendLoop_done]
      · -- more was accepted than was left
        refine ⟨1, _, k, [], rfl, .inr ⟨?_, ?_⟩⟩
        · have hne : 0 < sizeTSub left k := by
            unfold sizeTSub sizeT sizeMod
            omega
          rw [Call.after, hstep, sendLoop_outOfFuel hne]
        · rw [acceptedBytes_append]
          omega

end

/-! ### Whole runs -/

section
variable {env : SendResults} {str : Bytes}

/-- A run whose outcome does not depend on the calls it is allowed beyond `n`. -/
private theorem transmitsOnce_of_returns {n : Nat} {w : Wire} (hn : n ≤ str.length)
    (hok : ∀ fuel, n ≤ fuel → (send env fuel str).run ⟨[]⟩ = .ok () w)
    (hearly : ∀ fuel, fuel < n → ∃ w', (send env fuel str).run ⟨[]⟩ = .error .outOfFuel w' ∧
      acceptedBytes w' ≤ str.length)
    (htiles : Tiles 0 (accepted w) str.length) : TransmitsOnce env str := by
  have hcopied : copied str (accepted w) = str := by simpa using htiles.copies
  have hbytes : acceptedBytes w = str.length := by simpa [acceptedBytes] using htiles.sum
  refine ⟨?_, ?_, ?_⟩
  · intro fuel w' hrun
    by_cases hfuel : n ≤ fuel
    · rw [hok fuel hfuel] at hrun
      injection hrun with _ hw
      subst hw
      exact ⟨htiles, hcopied⟩
    · obtain ⟨w'', hout, -⟩ := hearly fuel (by omega)
      rw [hout] at hrun
      injection hrun
  · intro fuel
    by_cases hfuel : n ≤ fuel
    · rw [Call.after_ok (hok fuel hfuel), hbytes]
    · obtain ⟨w', hout, hle⟩ := hearly fuel (by omega)
      rw [Call.after_error hout]
      exact hle
  · rw [Call.reply_ok (hok str.length hn)]
    simp

theorem LawfulRun.start (h : LawfulRun env str) :
    LawfulFrom env str.length str.length 0 ⟨[]⟩ := h

/-- The run from the first call on. -/
private theorem first_call (hsize : str.length < 2 ^ 63) (hpos : 0 < str.length) {k : Nat}
    (hk : env.result 0 = k) (hle : k ≤ str.length) (fuel : Nat) :
    (send env (fuel + 1) str).run ⟨[]⟩
      = (sendLoop env str.length fuel (str.length - k) k).run ⟨[⟨0, str.length, k⟩]⟩ := by
  rw [← sizeTSub_eq hle (by omega)]
  exact sendLoop_step (w := ⟨[]⟩) hsize hpos (Nat.zero_le _) hk (by omega)

/-- The run from the second call on. -/
private theorem second_call (hsize : str.length < 2 ^ 63) {k k' : Nat} (hk : env.result 0 = k)
    (hlt : k < str.length) (hk' : env.result 1 = k') (hle : k' ≤ str.length - k) (fuel : Nat) :
    (send env (fuel + 2) str).run ⟨[]⟩
      = (sendLoop env str.length fuel (str.length - k - k') k').run
          ⟨[⟨0, str.length, k⟩, ⟨k, str.length - k, k'⟩]⟩ := by
  rw [first_call hsize (by omega) hk (by omega), ← sizeTSub_eq hle (by omega)]
  exact sendLoop_step (w := ⟨[⟨0, str.length, k⟩]⟩) hsize (by omega) (by omega) hk' (by omega)

private theorem transmits_in_one (hsize : str.length < 2 ^ 63) (hpos : 0 < str.length)
    (hk : env.result 0 = str.length) : TransmitsOnce env str := by
  refine transmitsOnce_of_returns (n := 1) (w := ⟨[⟨0, str.length, str.length⟩]⟩) hpos ?_ ?_ ?_
  · intro fuel hfuel
    obtain ⟨fuel, rfl⟩ := Nat.exists_eq_add_of_le' hfuel
    rw [first_call hsize hpos hk (Nat.le_refl _), Nat.sub_self, sendLoop_done]
  · intro fuel hfuel
    obtain rfl : fuel = 0 := by omega
    exact ⟨⟨[]⟩, sendLoop_outOfFuel hpos 0, Nat.zero_le _⟩
  · simp [accepted, Tiles]

private theorem transmits_in_two (hsize : str.length < 2 ^ 63) {k k' : Nat}
    (hk : env.result 0 = k) (hpos : 1 ≤ k) (hlt : k < str.length) (hk' : env.result 1 = k')
    (hsum : k + k' = str.length) : TransmitsOnce env str := by
  refine transmitsOnce_of_returns (n := 2)
    (w := ⟨[⟨0, str.length, k⟩, ⟨k, str.length - k, k'⟩]⟩) (by omega) ?_ ?_ ?_
  · intro fuel hfuel
    obtain ⟨fuel, rfl⟩ := Nat.exists_eq_add_of_le' hfuel
    rw [second_call hsize hk hlt hk' (by omega), show str.length - k - k' = 0 by omega,
      sendLoop_done]
  · intro fuel hfuel
    obtain rfl | rfl : fuel = 0 ∨ fuel = 1 := by omega
    · exact ⟨⟨[]⟩, sendLoop_outOfFuel (by omega) 0, Nat.zero_le _⟩
    · refine ⟨⟨[⟨0, str.length, k⟩]⟩, ?_, ?_⟩
      · rw [first_call hsize (by omega) hk (by omega), sendLoop_outOfFuel (by omega)]
      · have hbytes := acceptedBytes_append ⟨[]⟩ 0 str.length k
        simp only [List.nil_append] at hbytes
        rw [hbytes]
        simp [acceptedBytes, accepted]
        omega
  · have hne : (k : Int) ≠ -1 := by omega
    have hne' : (k' : Int) ≠ -1 := by omega
    simp [accepted, Tiles, hne, hne', hsum]

private theorem transmits_of_failsEarly (hsize : str.length < 2 ^ 63) (hpos : 0 < str.length)
    (hlawful : LawfulRun env str) (hfails : FailsEarly env.result 0 str.length) :
    TransmitsOnce env str := by
  have hrun := fun fuel => hfails.run hsize 0 fuel ⟨[]⟩ rfl hpos (by simp [acceptedBytes, accepted])
    hlawful.start
  refine ⟨?_, ?_, ?_⟩
  · intro fuel w hok
    obtain ⟨e, w', herror, -⟩ := hrun fuel
    have hsame : (send env fuel str).run ⟨[]⟩ = .error e w' := herror
    rw [hok] at hsame
    injection hsame
  · intro fuel
    obtain ⟨e, w', herror, hbytes, -⟩ := hrun fuel
    have hsame : (send env fuel str).run ⟨[]⟩ = .error e w' := herror
    rw [Call.after_error hsame]
    exact hbytes
  · obtain ⟨e, w', herror, -, hends⟩ := hrun str.length
    have hsame : (send env str.length str).run ⟨[]⟩ = .error e w' := herror
    rw [Call.reply_error hsame]
    intro heq
    exact hends (Nat.le_refl _) (Except.error.inj heq)

/-- A third accepted range does not continue the second one. -/
private theorem not_tiles_three {k k' l : Nat} (hpos : 1 ≤ k) {size : Nat} {w : Wire}
    {rest : List SysSend}
    (hlog : w.log = [⟨0, size, k⟩, ⟨k, size - k, k'⟩] ++ ⟨k', size - k', l⟩ :: rest) :
    ¬ Tiles 0 (accepted w) size := by
  have hk : (k : Int) ≠ -1 := by omega
  have hk' : (k' : Int) ≠ -1 := by omega
  have hl : (l : Int) ≠ -1 := by omega
  intro htiles
  simp [accepted, hlog, hk, hk', hl, Tiles] at htiles
  omega

private theorem not_transmits (hsize : str.length < 2 ^ 63) (hlawful : LawfulRun env str)
    (hno : ¬ ShortTransfer env.result str.length) : ¬ TransmitsOnce env str := by
  unfold ShortTransfer at hno
  push Not at hno
  obtain ⟨hne, hone, htwo, hfails⟩ := hno
  have hpos : 0 < str.length := by omega
  have hnext := hlawful.start.next hsize hpos hpos
  obtain ⟨k, hk, hkpos, hkle⟩ := hnext.resolve_left fun hfail => hfails (.now hpos hfail)
  have hk : env.result 0 = k := hk
  have hlt : k < str.length := by omega
  have hlawful₁ := hlawful.start.step hsize hpos (Nat.zero_le _) hk (by omega)
  rw [sizeTSub_eq (by omega) (by omega)] at hlawful₁
  have hnext₁ := hlawful₁.next hsize (by omega) hlt
  obtain ⟨k', hk', hkpos', hkle'⟩ := hnext₁.resolve_left fun hfail =>
    hfails (.later hk hlt (.now (by omega) hfail))
  have hk' : env.result 1 = k' := hk'
  have hlt' : k' < str.length - k := by omega
  have hlawful₂ := hlawful₁.step hsize (by omega) (by omega) hk' (by omega)
  rw [sizeTSub_eq (by omega) (by omega)] at hlawful₂
  obtain ⟨fuel, w, l, rest, hlog, hend⟩ := returns_or_wraps hsize _ k'
    ⟨[⟨0, str.length, k⟩, ⟨k, str.length - k, k'⟩]⟩ (by omega)
    (fun hfails₂ => hfails (.later hk hlt (.later hk' hlt' hfails₂))) (by omega)
    (by simp [acceptedBytes, accepted]; omega) hlawful₂
  intro htransmits
  rcases hend with hok | ⟨hafter, hover⟩
  · refine not_tiles_three hkpos hlog (htransmits.sent (fuel + 2) w ?_).1
    rw [second_call hsize hk hlt hk' (by omega)]
    exact hok
  · have hbytes := htransmits.left (fuel + 2)
    rw [Call.after, second_call hsize hk hlt hk' (by omega)] at hbytes
    rw [Call.after] at hafter
    rw [hafter] at hbytes
    omega

/--
**`Socket::send` transmits the string exactly once if and only if at most two system
calls do it, or one fails while bytes are left.**
-/
theorem send_transmitsOnce_iff (env : SendResults) (str : Bytes) (hsize : str.length < 2 ^ 63)
    (hlawful : LawfulRun env str) :
    TransmitsOnce env str ↔ ShortTransfer env.result str.length := by
  constructor
  · intro htransmits
    by_contra hno
    exact not_transmits hsize hlawful hno htransmits
  · intro hshort
    rcases Nat.eq_zero_or_pos str.length with hzero | hpos
    · refine transmitsOnce_of_returns (n := 0) (w := ⟨[]⟩) (Nat.zero_le _) ?_ (by omega) ?_
      · intro fuel _
        rw [send, hzero, sendLoop_done]
      · exact hzero.symm
    rcases hshort with hzero | hone | htwo | hfails
    · omega
    · exact transmits_in_one hsize hpos hone
    · rcases hlawful.start.next hsize hpos hpos with hfail | ⟨k, hk, hkpos, hkle⟩
      · exact transmits_of_failsEarly hsize hpos hlawful (.now hpos hfail)
      · have hk : env.result 0 = k := hk
        rcases Nat.lt_or_eq_of_le hkle with hlt | rfl
        · have hk' : env.result 1 = (str.length - k : Nat) := by omega
          exact transmits_in_two hsize hk hkpos hlt hk' (by omega)
        · exact transmits_in_one hsize hpos hk
    · exact transmits_of_failsEarly hsize hpos hlawful hfails

/-- A kernel that takes one byte at a time. -/
def byteAtATime : SendResults := { result := fun _ => 1, strerror := fun _ => "" }

private theorem byteAtATime_lawful : LawfulRun byteAtATime [97, 98, 99] := by
  intro fuel
  match fuel with
  | 0 => decide
  | 1 => decide
  | 2 => decide
  | n + 3 =>
      have hrun : (send byteAtATime (n + 3) [97, 98, 99]).after ⟨[]⟩
          = ⟨[⟨0, 3, 1⟩, ⟨1, 2, 1⟩, ⟨1, 2, 1⟩]⟩ := by
        cases n <;> rfl
      rw [hrun]
      decide

/-- Three bytes one at a time: not a short transfer. -/
theorem send_transmitsOnce_iff_abc :
    TransmitsOnce byteAtATime [97, 98, 99] ↔ ShortTransfer byteAtATime.result 3 :=
  send_transmitsOnce_iff byteAtATime [97, 98, 99] (by decide) byteAtATime_lawful

/-- `send("abc")` returns after sending `"abb"`: the second byte twice, the third never. -/
theorem send_repeats_a_byte :
    LawfulRun byteAtATime [97, 98, 99] ∧
    (send byteAtATime 3 [97, 98, 99]).run ⟨[]⟩
      = .ok () ⟨[⟨0, 3, 1⟩, ⟨1, 2, 1⟩, ⟨1, 2, 1⟩]⟩ ∧
    copied [97, 98, 99] (accepted ⟨[⟨0, 3, 1⟩, ⟨1, 2, 1⟩, ⟨1, 2, 1⟩]⟩) = ([97, 98, 98] : Bytes) ∧
    ¬ TransmitsOnce byteAtATime [97, 98, 99] := by
  have hrun : (send byteAtATime 3 [97, 98, 99]).run ⟨[]⟩
      = .ok () ⟨[⟨0, 3, 1⟩, ⟨1, 2, 1⟩, ⟨1, 2, 1⟩]⟩ := by decide
  have hcopied : copied [97, 98, 99] (accepted ⟨[⟨0, 3, 1⟩, ⟨1, 2, 1⟩, ⟨1, 2, 1⟩]⟩)
      = ([97, 98, 98] : Bytes) := by decide
  refine ⟨byteAtATime_lawful, hrun, hcopied, ?_⟩
  intro htransmits
  have hsame := (htransmits.sent 3 _ hrun).2
  rw [hcopied] at hsame
  exact absurd hsame (by decide)

end

end Technopark.Socket
