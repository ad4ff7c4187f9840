/-
The command lines that `Options::Options` accepts.

An argument is one of the three names, with or without dashes, an equals sign and a value that
has no other (`Written`).  The value of a port or of the mode need not be a number, it only has
to begin with one.  The constructor accepts three or more such arguments and nothing else
(`options_accepts_iff`).

So whatever settings are written down are read back, in any order (`options_roundTrip`).
-/
import Technopark.Lib.Numeral
import Technopark.Proofs.Options

namespace Technopark.Options

/-! ### The grammar -/

/-- What may stand before a name. -/
def Dashes (dashes : Bytes) : Prop := dashes = [] ∨ dashes = text "--"

/-- A name and a value as one argument. -/
def setting (dashes name value : Bytes) : Bytes := dashes ++ name ++ 61 :: value

/-- `engine_t` as it is written. -/
def engineText : EngineT → Bytes
  | .select => text "select"
  | .poll => text "poll"
  | .unknown => []

/-- An argument, and the assignment it is written for. -/
inductive Written : Bytes → Assign → Prop
  | port {dashes value : Bytes} {n : Int} (hdashes : Dashes dashes) (hvalue : 61 ∉ value)
      (hn : Numeral value n) (hrange : -2 ^ 31 ≤ n ∧ n < 2 ^ 31) :
      Written (setting dashes optPort value) (.port (toUInt16 n))
  | engine {dashes : Bytes} {e : EngineT} (hdashes : Dashes dashes) (he : e ≠ .unknown) :
      Written (setting dashes optEngine (engineText e)) (.engine e)
  | async {dashes value : Bytes} {b : Bool} (hdashes : Dashes dashes) (hvalue : 61 ∉ value)
      (hb : Numeral value (if b then 1 else 0)) :
      Written (setting dashes optAsync value) (.async b)

/-! ### One argument -/

variable {arg name value : Bytes} {a : Assign}

/-- An argument that splits into a name and a value. -/
theorem split_eq_pair_iff :
    split arg (text "=") = [name, value] ↔ arg = name ++ 61 :: value ∧ 61 ∉ name ∧ 61 ∉ value := by
  have hsplit (u : Bytes) : split u (text "=") = u.splitOn 61 := by
    rw [split, List.splitOn_eq_splitOnP]
    congr 1
    funext c
    rw [Bool.eq_iff_iff, decide_eq_true_iff, beq_iff_eq]
    exact List.mem_singleton
  rw [hsplit]
  constructor
  · intro h
    by_cases hmem : (61 : UInt8) ∈ arg
    · obtain ⟨before, behind, rfl, hbefore⟩ := List.eq_append_cons_of_mem hmem
      rw [List.splitOn_append_cons_self_of_not_mem hbefore] at h
      injection h with hname hvalue
      subst hname
      by_cases hbehind : (61 : UInt8) ∈ behind
      · obtain ⟨first, rest, rfl, hfirst⟩ := List.eq_append_cons_of_mem hbehind
        rw [List.splitOn_append_cons_self_of_not_mem hfirst] at hvalue
        injection hvalue with _ hvalue
        exact absurd hvalue (List.splitOn_ne_nil _ _)
      · rw [List.splitOn_eq_singleton hbehind] at hvalue
        injection hvalue with hvalue
        subst hvalue
        exact ⟨rfl, hbefore, hbehind⟩
    · rw [List.splitOn_eq_singleton hmem] at h
      injection h with _ h
      injection h
  · rintro ⟨rfl, hname, hvalue⟩
    rw [List.splitOn_append_cons_self_of_not_mem hname, List.splitOn_eq_singleton hvalue]

/-- The names without their dashes. -/
theorem plainName_eq_iff {base : Bytes} (hplain : ¬ startsWith base (text "--"))
    (hsize : base.length < npos) :
    plainName name = base ↔ ∃ dashes, Dashes dashes ∧ name = dashes ++ base := by
  constructor
  · intro h
    rw [plainName] at h
    split at h
    · next hdashes =>
        obtain ⟨behind, rfl⟩ := List.isPrefixOf_iff_prefix.mp hdashes
        have hdrop : (text "--" ++ behind).drop 2 = behind := rfl
        rw [hdrop] at h
        have hwhole : behind.length ≤ npos := by
          have hlength := congrArg List.length h
          rw [List.length_take] at hlength
          omega
        rw [List.take_of_length_le hwhole] at h
        exact ⟨text "--", .inr rfl, by rw [h]⟩
    · exact ⟨[], .inl rfl, h⟩
  · rintro ⟨dashes, rfl | rfl, rfl⟩
    · exact if_neg hplain
    · have hdashes : startsWith (text "--" ++ base) (text "--") = true :=
        List.isPrefixOf_iff_prefix.mpr (List.prefix_append _ _)
      rw [plainName, if_pos hdashes]
      exact List.take_of_length_le hsize.le

theorem Member.plain (m : Member) : ¬ startsWith m.name (text "--") ∧ m.name.length < npos := by
  have hsize : m.name.length ≤ 6 := by cases m <;> decide
  refine ⟨by cases m <;> decide, ?_⟩
  have hnpos : npos = 2 ^ 64 - 1 := rfl
  omega

theorem string2engine_eq_iff {e : EngineT} (he : e ≠ .unknown) :
    string2engine value = e ↔ value = engineText e := by
  rw [string2engine]
  cases e with
  | unknown => exact absurd rfl he
  | select =>
      show _ ↔ value = text "select"
      split
      · next hselect => simp [hselect]
      · next hselect =>
          refine iff_of_false ?_ hselect
          split
          · exact EngineT.noConfusion
          · exact EngineT.noConfusion
  | poll =>
      show _ ↔ value = text "poll"
      split
      · next hselect =>
          rw [hselect]
          exact iff_of_false EngineT.noConfusion (by decide)
      · split
        · next hpoll => simp [hpoll]
        · next hpoll => exact iff_of_false EngineT.noConfusion hpoll

theorem toOption_eq_some_iff {α : Type} {x : Except Fault α} {b : α} :
    x.toOption = some b ↔ x = .ok b := by
  cases x with
  | ok c => simp [Except.toOption]
  | error e => simp [Except.toOption]

/-- The value of an option, as what it is accepted. -/
def ValueOf (value : Bytes) : Assign → Prop
  | .port n => ∃ k, Numeral value k ∧ (-2 ^ 31 ≤ k ∧ k < 2 ^ 31) ∧ n = toUInt16 k
  | .engine e => e ≠ .unknown ∧ value = engineText e
  | .async b => Numeral value (if b then 1 else 0)

theorem assignValue_eq_some_iff {m : Member} :
    assignValue m.name value = some a ↔ a.member = m ∧ ValueOf value a := by
  cases m with
  | port =>
      show (stoi value).toOption.map (fun n => Assign.port (toUInt16 n)) = some a ↔ _
      rw [Option.map_eq_some_iff]
      constructor
      · rintro ⟨n, hn, rfl⟩
        obtain ⟨hnumeral, hrange⟩ := stoi_eq_ok_iff.mp (toOption_eq_some_iff.mp hn)
        exact ⟨rfl, n, hnumeral, hrange, rfl⟩
      · rintro ⟨hmember, hvalue⟩
        cases a with
        | port n =>
            obtain ⟨k, hnumeral, hrange, rfl⟩ := hvalue
            exact ⟨k, toOption_eq_some_iff.mpr (stoi_eq_ok_iff.mpr ⟨hnumeral, hrange⟩), rfl⟩
        | engine e => injection hmember
        | async b => injection hmember
  | engine =>
      show (if string2engine value = .unknown then none else
        some (Assign.engine (string2engine value))) = some a ↔ _
      constructor
      · intro h
        split at h
        · injection h
        · next hknown =>
            injection h with h
            subst h
            exact ⟨rfl, hknown, (string2engine_eq_iff hknown).mp rfl⟩
      · rintro ⟨hmember, hvalue⟩
        cases a with
        | port n => injection hmember
        | engine e =>
            obtain ⟨he, hvalue⟩ := hvalue
            have hread := (string2engine_eq_iff he).mpr hvalue
            rw [hread, if_neg he]
        | async b => injection hmember
  | async =>
      show ((stoi value).toOption.bind fun n =>
        if n = 0 then some (Assign.async false) else if n = 1 then some (Assign.async true)
        else none) = some a ↔ _
      rw [Option.bind_eq_some_iff]
      constructor
      · rintro ⟨n, hn, hassign⟩
        obtain ⟨hnumeral, -⟩ := stoi_eq_ok_iff.mp (toOption_eq_some_iff.mp hn)
        split at hassign
        · next hzero =>
            injection hassign with hassign
            subst hassign hzero
            exact ⟨rfl, hnumeral⟩
        · split at hassign
          · next hone =>
              injection hassign with hassign
              subst hassign hone
              exact ⟨rfl, hnumeral⟩
          · injection hassign
      · rintro ⟨hmember, hvalue⟩
        cases a with
        | port n => injection hmember
        | engine e => injection hmember
        | async b =>
            refine ⟨_, toOption_eq_some_iff.mpr (stoi_eq_ok_iff.mpr ⟨hvalue, ?_⟩), ?_⟩
            · split <;> omega
            · cases b <;> rfl

/-- The names of the options have no equals sign, and neither have those with dashes. -/
theorem Dashes.no_equals {dashes : Bytes} (h : Dashes dashes) (m : Member) :
    (61 : UInt8) ∉ dashes ++ m.name := by
  rcases h with rfl | rfl
  · cases m <;> decide
  · cases m <;> decide

/-- What is accepted, by the name and the value. -/
theorem assignOf_setting_iff :
    assignOf arg = some a ↔
      ∃ dashes value, Dashes dashes ∧ 61 ∉ value ∧ arg = setting dashes a.member.name value ∧
        ValueOf value a := by
  constructor
  · intro h
    have hname := optionName_of_assignOf h
    unfold optionName at hname
    unfold assignOf at h
    split at h
    · next name value hsplit =>
        rw [hsplit] at hname
        obtain ⟨rfl, -, hvalue⟩ := split_eq_pair_iff.mp hsplit
        have hplain : plainName name = a.member.name := Option.some.inj hname
        rw [hplain] at h
        obtain ⟨-, hread⟩ := assignValue_eq_some_iff.mp h
        obtain ⟨hstart, hsize⟩ := a.member.plain
        obtain ⟨dashes, hdashes, rfl⟩ := (plainName_eq_iff hstart hsize).mp hplain
        exact ⟨dashes, value, hdashes, hvalue, rfl, hread⟩
    · injection h
  · rintro ⟨dashes, value, hdashes, hvalue, rfl, hread⟩
    have hsplit : split (setting dashes a.member.name value) (text "=")
        = [dashes ++ a.member.name, value] :=
      split_eq_pair_iff.mpr ⟨rfl, hdashes.no_equals _, hvalue⟩
    obtain ⟨hstart, hsize⟩ := a.member.plain
    have hplain : plainName (dashes ++ a.member.name) = a.member.name :=
      (plainName_eq_iff hstart hsize).mpr ⟨dashes, hdashes, rfl⟩
    unfold assignOf
    rw [hsplit]
    dsimp only
    rw [hplain]
    exact assignValue_eq_some_iff.mpr ⟨rfl, hread⟩

theorem engineText_no_equals (e : EngineT) : (61 : UInt8) ∉ engineText e := by
  cases e <;> decide

/-- **An argument is accepted exactly if it is written for an assignment.** -/
theorem assignOf_eq_some_iff : assignOf arg = some a ↔ Written arg a := by
  rw [assignOf_setting_iff]
  constructor
  · rintro ⟨dashes, value, hdashes, hvalue, rfl, hread⟩
    cases a with
    | port n =>
        obtain ⟨k, hnumeral, hrange, rfl⟩ := hread
        exact .port hdashes hvalue hnumeral hrange
    | engine e =>
        obtain ⟨he, rfl⟩ := hread
        exact .engine hdashes he
    | async b => exact .async hdashes hvalue hread
  · intro h
    cases h with
    | port hdashes hvalue hn hrange =>
        exact ⟨_, _, hdashes, hvalue, rfl, _, hn, hrange, rfl⟩
    | engine hdashes he => exact ⟨_, _, hdashes, engineText_no_equals _, rfl, he, rfl⟩
    | async hdashes hvalue hb => exact ⟨_, _, hdashes, hvalue, rfl, hb⟩

/-! ### The whole command line -/

/-- A function that is defined on a whole list. -/
theorem forall₂_some_iff {α β : Type} {f : α → Option β} {l : List α} {l' : List β} :
    List.Forall₂ (fun x y => f x = some y) l l' ↔ (∀ x ∈ l, (f x).isSome) ∧ l' = l.filterMap f := by
  induction l generalizing l' with
  | nil => simp
  | cons x l ih =>
      constructor
      · rintro (_ | ⟨hx, hrest⟩)
        obtain ⟨hall, rfl⟩ := ih.mp hrest
        refine ⟨List.forall_mem_cons.mpr ⟨by rw [hx]; rfl, hall⟩, ?_⟩
        rw [List.filterMap_cons_some hx]
      · rintro ⟨hall, rfl⟩
        obtain ⟨hx, hrest⟩ := List.forall_mem_cons.mp hall
        obtain ⟨y, hy⟩ := Option.isSome_iff_exists.mp hx
        rw [List.filterMap_cons_some hy]
        exact .cons hy (ih.mpr ⟨hrest, rfl⟩)

/--
**The command lines that are accepted.**  Three arguments or more, each of them written for an
assignment; the assignments are made one after another, and the last one for a member counts.
-/
theorem options_accepts_iff (args : List Bytes) (o : Options) :
    new args = .ok o ↔ 4 ≤ args.length ∧
      ∃ assigns, List.Forall₂ Written args.tail assigns ∧
        o = assigns.foldl Assign.apply unassigned := by
  have hwritten (assigns : List Assign) : List.Forall₂ Written args.tail assigns ↔
      (∀ arg ∈ args.tail, (assignOf arg).isSome) ∧ assigns = args.tail.filterMap assignOf := by
    rw [← forall₂_some_iff]
    simp only [assignOf_eq_some_iff]
  rw [new_eq_ok_iff]
  refine and_congr_right fun _ => ?_
  constructor
  · rintro ⟨hall, rfl⟩
    exact ⟨_, (hwritten _).mpr ⟨hall, rfl⟩, rfl⟩
  · rintro ⟨assigns, hforall, rfl⟩
    obtain ⟨hall, rfl⟩ := (hwritten assigns).mp hforall
    exact ⟨hall, rfl⟩

/-! ### Settings that are written down -/

/-- The three settings of a server. -/
structure Settings where
  port : Nat
  engine : EngineT
  async : Bool
  fits : port < 2 ^ 16
  known : engine ≠ .unknown

/-- The assignments they stand for. -/
def Settings.assigns (c : Settings) : List Assign :=
  [.port c.port, .engine c.engine, .async c.async]

/-- `0` or `1`. -/
def asyncText (b : Bool) : Bytes := decimalText (if b then 1 else 0)

/-- The arguments that are written for them. -/
inductive Settings.Arguments (c : Settings) : List Bytes → Prop
  | mk {dashes dashes' dashes'' : Bytes} {args : List Bytes} (hport : Dashes dashes)
      (hengine : Dashes dashes') (hasync : Dashes dashes'')
      (hargs : args.Perm [setting dashes optPort (decimalText c.port),
        setting dashes' optEngine (engineText c.engine),
        setting dashes'' optAsync (asyncText c.async)]) :
      c.Arguments args

/-- What is read back. -/
def Settings.options (c : Settings) : Options :=
  { mPort := some c.port, mEngine := some c.engine, mAsync := some c.async }

theorem decimalText_no_equals (n : Nat) : (61 : UInt8) ∉ decimalText n := by
  obtain ⟨-, hdigits, -⟩ := decimalText_digits n
  intro hmem
  exact absurd (hdigits _ hmem) (by decide)

/-- **The settings are read back, in whatever order they are written.** -/
theorem options_roundTrip (c : Settings) (program : Bytes) {args : List Bytes}
    (hargs : c.Arguments args) : new (program :: args) = .ok c.options := by
  obtain @⟨dashes, dashes', dashes'', _, hport, hengine, hasync, hperm⟩ := hargs
  have hfits := c.fits
  have hstored : toUInt16 c.port = c.port := by
    rw [toUInt16]
    omega
  have hreadPort : assignOf (setting dashes optPort (decimalText c.port))
      = some (.port c.port) := by
    rw [assignOf_eq_some_iff]
    have hrange : -2 ^ 31 ≤ (c.port : Int) ∧ (c.port : Int) < 2 ^ 31 := by omega
    have hwritten := Written.port hport (decimalText_no_equals _) (numeral_decimalText _) hrange
    rwa [hstored] at hwritten
  have hreadEngine : assignOf (setting dashes' optEngine (engineText c.engine))
      = some (.engine c.engine) := assignOf_eq_some_iff.mpr (.engine hengine c.known)
  have hreadAsync : assignOf (setting dashes'' optAsync (asyncText c.async))
      = some (.async c.async) := by
    refine assignOf_eq_some_iff.mpr (.async hasync (decimalText_no_equals _) ?_)
    have hnumeral := numeral_decimalText (if c.async then 1 else 0)
    rwa [apply_ite Nat.cast] at hnumeral
  have hassigns : (args.filterMap assignOf).Perm c.assigns := by
    refine (hperm.filterMap assignOf).trans ?_
    rw [List.filterMap_cons_some hreadPort, List.filterMap_cons_some hreadEngine,
      List.filterMap_cons_some hreadAsync]
    exact .refl _
  refine new_eq_ok_iff.mpr ⟨?_, ?_, ?_⟩
  · rw [List.length_cons, hperm.length_eq]
    exact Nat.le_refl 4
  · intro arg harg
    have hmem := hperm.mem_iff.mp harg
    rcases List.mem_cons.mp hmem with rfl | hmem
    · rw [hreadPort]; rfl
    rcases List.mem_cons.mp hmem with rfl | hmem
    · rw [hreadEngine]; rfl
    · rw [List.mem_singleton.mp hmem, hreadAsync]; rfl
  · show c.assigns.foldl Assign.apply unassigned = (args.filterMap assignOf).foldl Assign.apply _
    refine hassigns.symm.foldl_eq' ?_ unassigned
    have hmembers : (c.assigns.map Assign.member).Nodup := by
      show [Member.port, .engine, .async].Nodup
      decide
    intro a ha a' ha' o
    by_cases hmember : a.member = a'.member
    · rw [List.inj_on_of_nodup_map hmembers ha ha' hmember]
    · exact apply_comm hmember o

end Technopark.Options
