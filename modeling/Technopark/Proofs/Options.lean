/-
`Options::Options` on every order of the arguments.

An argument either is refused or assigns one member, and which of the two does not depend
on the arguments before it.  So the constructor returns exactly if every argument is
accepted, and what it returns is the assignments applied one after another.  Assignments
to different members commute.

There are only three members and at least three arguments, so with different names each
of the members is assigned, and none is read before it is.

The last argument for a member decides its value.  A port is read as an `int` and stored
in sixteen bits, so it is the number that was written only if it fits.
-/
import Technopark.Net.Options
import Mathlib.Data.Fintype.Card

namespace Technopark.Options

/-! ### What an argument does -/

/-- The members, by the option that sets them. -/
inductive Member
  | port
  | engine
  | async
  deriving Repr, DecidableEq

instance : Fintype Member where
  elems := {.port, .engine, .async}
  complete := by
    intro m
    cases m <;> decide

/-- The name of the option. -/
def Member.name : Member → Bytes
  | .port => optPort
  | .engine => optEngine
  | .async => optAsync

/-- An assignment to a member. -/
inductive Assign
  | port (n : Nat)
  | engine (e : EngineT)
  | async (b : Bool)
  deriving Repr, DecidableEq

def Assign.member : Assign → Member
  | .port _ => .port
  | .engine _ => .engine
  | .async _ => .async

def Assign.apply (o : Options) : Assign → Options
  | .port n => { o with mPort := some n }
  | .engine e => { o with mEngine := some e }
  | .async b => { o with mAsync := some b }

/-- The name without a leading `"--"`. -/
def plainName (name : Bytes) : Bytes :=
  if startsWith name (text "--") then (name.drop 2).take npos else name

/-- The name of an argument that has one. -/
def optionName (arg : Bytes) : Option Bytes :=
  match split arg (text "=") with
  | [name, _] => some (plainName name)
  | _ => none

/-- What a value means for an option of that name. -/
def assignValue (name value : Bytes) : Option Assign :=
  if name = optPort then
    (stoi value).toOption.map fun n => .port (toUInt16 n)
  else if name = optEngine then
    if string2engine value = .unknown then none else some (.engine (string2engine value))
  else if name = optAsync then
    (stoi value).toOption.bind fun n =>
      if n = 0 then some (.async false) else if n = 1 then some (.async true) else none
  else
    none

/-- What an argument assigns, if it is accepted. -/
def assignOf (arg : Bytes) : Option Assign :=
  match split arg (text "=") with
  | [name, value] => assignValue (plainName name) value
  | _ => none

section
variable {args opts opts' : List Bytes} {arg name value : Bytes} {o o' : Options} {a : Assign}

theorem badOptions_toOption {α : Type} : (badOptions args : Except Fault α).toOption = none := by
  cases args with
  | nil => rfl
  | cons => rfl

/-- Taking the dashes off never throws. -/
theorem optName_run : optName name = .ok (plainName name) := by
  unfold optName plainName
  split
  · next hdashes =>
      have hle : 2 ≤ name.length := (List.isPrefixOf_iff_prefix.mp hdashes).length_le
      exact substr_ok hle _
  · rfl

theorem setOption_toOption :
    (setOption args o name value).toOption = (assignValue name value).map (Assign.apply o) := by
  unfold setOption assignValue
  split
  · -- `port`
    cases stoi value with
    | error e => rfl
    | ok n => rfl
  · split
    · -- `engine`
      split
      · exact badOptions_toOption
      · rfl
    · split
      · -- `async`
        cases stoi value with
        | error e => rfl
        | ok n =>
            show Except.toOption (if n = 0 then _ else _) = Option.map _ (if n = 0 then _ else _)
            split
            · rfl
            · split
              · rfl
              · exact badOptions_toOption
      · exact badOptions_toOption

/-- **An argument is refused, or makes its assignment, whatever came before it.** -/
theorem parseOption_toOption :
    (parseOption args o arg).toOption = (assignOf arg).map (Assign.apply o) := by
  unfold parseOption assignOf
  rcases split arg (text "=") with _ | ⟨name, _ | ⟨value, _ | ⟨x, rest⟩⟩⟩
  · exact badOptions_toOption
  · exact badOptions_toOption
  · dsimp only
    rw [optName_run]
    exact setOption_toOption
  · exact badOptions_toOption

theorem parseOption_cases (args : List Bytes) (o : Options) (arg : Bytes) :
    (∃ a, assignOf arg = some a ∧ parseOption args o arg = .ok (a.apply o)) ∨
    assignOf arg = none ∧ ∃ e, parseOption args o arg = .error e := by
  have heffect : (parseOption args o arg).toOption = _ := parseOption_toOption
  cases hassign : assignOf arg with
  | none =>
      rw [hassign] at heffect
      cases hparse : parseOption args o arg with
      | error e => exact .inr ⟨rfl, e, rfl⟩
      | ok o' =>
          rw [hparse] at heffect
          injection heffect
  | some a =>
      rw [hassign] at heffect
      cases hparse : parseOption args o arg with
      | error e =>
          rw [hparse] at heffect
          injection heffect
      | ok o' =>
          rw [hparse] at heffect
          obtain rfl : o' = a.apply o := Option.some.inj heffect
          exact .inl ⟨a, rfl, rfl⟩

/-- **The loop makes all the assignments, or stops at an argument that is refused.** -/
theorem foldlM_parseOption_eq_ok_iff :
    opts.foldlM (parseOption args) o = .ok o' ↔
      (∀ arg ∈ opts, (assignOf arg).isSome) ∧
        o' = (opts.filterMap assignOf).foldl Assign.apply o := by
  induction opts generalizing o with
  | nil =>
      show Except.ok o = Except.ok o' ↔ _
      constructor
      · intro hok
        injection hok with ho
        exact ⟨by simp, ho.symm⟩
      · rintro ⟨-, rfl⟩
        rfl
  | cons arg opts ih =>
      rw [List.foldlM_cons]
      rcases parseOption_cases args o arg with ⟨a, hassign, hparse⟩ | ⟨hassign, e, hparse⟩
      · rw [hparse]
        show opts.foldlM (parseOption args) (a.apply o) = .ok o' ↔ _
        rw [ih]
        simp [hassign]
      · rw [hparse]
        show Except.error e = Except.ok o' ↔ _
        simp [hassign]

/-- No member is assigned yet. -/
def unassigned : Options := { mPort := none, mEngine := none, mAsync := none }

theorem new_eq_ok_iff :
    new args = .ok o ↔
      4 ≤ args.length ∧ (∀ arg ∈ args.tail, (assignOf arg).isSome) ∧
        o = (args.tail.filterMap assignOf).foldl Assign.apply unassigned := by
  unfold new
  split
  · next hfew =>
      constructor
      · intro hok
        have hnone : (badOptions args : Except Fault Options).toOption = none := badOptions_toOption
        rw [hok] at hnone
        injection hnone
      · rintro ⟨hlen, -⟩
        omega
  · next hmany =>
      rw [foldlM_parseOption_eq_ok_iff]
      constructor
      · rintro ⟨hall, ho⟩
        exact ⟨by omega, hall, ho⟩
      · rintro ⟨-, hall, ho⟩
        exact ⟨hall, ho⟩

/-! ### Names and members -/

theorem assignValue_name (h : assignValue name value = some a) : name = a.member.name := by
  unfold assignValue at h
  split at h
  · next hname =>
      obtain ⟨n, -, rfl⟩ := Option.map_eq_some_iff.mp h
      exact hname
  · split at h
    · next hname =>
        split at h
        · injection h
        · obtain rfl := Option.some.inj h
          exact hname
    · split at h
      · next hname =>
          obtain ⟨n, -, hn⟩ := Option.bind_eq_some_iff.mp h
          split at hn
          · obtain rfl := Option.some.inj hn
            exact hname
          · split at hn
            · obtain rfl := Option.some.inj hn
              exact hname
            · injection hn
      · injection h

theorem optionName_of_assignOf (h : assignOf arg = some a) :
    optionName arg = some a.member.name := by
  unfold assignOf at h
  unfold optionName
  generalize split arg (text "=") = parts at h ⊢
  rcases parts with _ | ⟨name, _ | ⟨value, _ | ⟨x, rest⟩⟩⟩
  · injection h
  · injection h
  · exact congrArg some (assignValue_name h)
  · injection h

/-- The names of accepted arguments are those of the members they assign. -/
theorem filterMap_optionName (hall : ∀ arg ∈ opts, (assignOf arg).isSome) :
    opts.filterMap optionName = ((opts.filterMap assignOf).map Assign.member).map Member.name := by
  induction opts with
  | nil => rfl
  | cons arg opts ih =>
      obtain ⟨a, ha⟩ := Option.isSome_iff_exists.mp (hall arg List.mem_cons_self)
      have hrest := ih fun arg' harg' => hall arg' (List.mem_cons_of_mem _ harg')
      rw [List.filterMap_cons_some (optionName_of_assignOf ha), List.filterMap_cons_some ha, hrest]
      rfl

/-- Assignments to different members commute. -/
theorem apply_comm {a b : Assign} (h : a.member ≠ b.member) (o : Options) :
    b.apply (a.apply o) = a.apply (b.apply o) := by
  cases a <;> cases b <;> first | rfl | exact absurd rfl h

/-- Whether a member is assigned. -/
def assigned (o : Options) : Member → Bool
  | .port => o.mPort.isSome
  | .engine => o.mEngine.isSome
  | .async => o.mAsync.isSome

theorem assigned_apply (a : Assign) (o : Options) (m : Member) :
    assigned (a.apply o) m = (decide (a.member = m) || assigned o m) := by
  cases a <;> cases m <;> rfl

theorem assigned_foldl_iff (assigns : List Assign) (m : Member) (o : Options) :
    assigned (assigns.foldl Assign.apply o) m ↔
      m ∈ assigns.map Assign.member ∨ assigned o m := by
  induction assigns generalizing o with
  | nil => simp
  | cons a assigns ih =>
      rw [List.foldl_cons, ih, assigned_apply, List.map_cons, List.mem_cons, Bool.or_eq_true,
        decide_eq_true_iff, eq_comm (a := m)]
      exact or_left_comm.trans or_assoc.symm

/-- Different members have different names. -/
theorem Member.name_injective : Function.Injective Member.name := by
  intro m m' h
  cases m <;> cases m' <;> first | rfl | exact absurd h (by decide)

/-- **A member is assigned exactly if some argument has its name.** -/
theorem new_assigned_iff (hok : new args = .ok o) (m : Member) :
    assigned o m ↔ ∃ arg ∈ args.tail, optionName arg = some m.name := by
  obtain ⟨-, hall, rfl⟩ := new_eq_ok_iff.mp hok
  rw [assigned_foldl_iff]
  constructor
  · rintro (hmem | hold)
    · obtain ⟨a, ha, rfl⟩ := List.mem_map.mp hmem
      obtain ⟨arg, harg, hassign⟩ := List.mem_filterMap.mp ha
      exact ⟨arg, harg, optionName_of_assignOf hassign⟩
    · cases m <;> exact absurd hold (by decide)
  · rintro ⟨arg, harg, hname⟩
    obtain ⟨a, hassign⟩ := Option.isSome_iff_exists.mp (hall arg harg)
    rw [optionName_of_assignOf hassign] at hname
    have hmember := Member.name_injective (Option.some.inj hname)
    exact .inl (List.mem_map.mpr ⟨a, List.mem_filterMap.mpr ⟨arg, harg, hassign⟩, hmember⟩)

/-! ### Any order -/

/-- The same program with its arguments in another order. -/
structure Reordered (args args' : List Bytes) : Prop where
  program : args.head? = args'.head?
  options : args.tail.Perm args'.tail

/-- Two argument vectors that mean the same. -/
structure SameOptions (args args' : List Bytes) : Prop where
  succeeds : (∃ o, new args = .ok o) ↔ ∃ o, new args' = .ok o
  equal : ∀ o o', new args = .ok o → new args' = .ok o' →
    o.port = o'.port ∧ o.engine = o'.engine ∧ o.async = o'.async
  /-- None of the three is read before it is assigned. -/
  read : ∀ o, new args = .ok o →
    (∃ port, o.port = .ok port) ∧ (∃ engine, o.engine = .ok engine) ∧ ∃ async, o.async = .ok async

theorem Reordered.length_eq (h : Reordered args opts) : args.length = opts.length := by
  obtain ⟨hprogram, hoptions⟩ := h
  have hlen := hoptions.length_eq
  cases args with
  | nil =>
      cases opts with
      | nil => rfl
      | cons => injection hprogram
  | cons =>
      cases opts with
      | nil => injection hprogram
      | cons => simpa using hlen

/-- The result does not depend on the order. -/
theorem Reordered.new_eq_ok (h : Reordered args opts)
    (hdistinct : (args.tail.filterMap optionName).Nodup) (hok : new args = .ok o) :
    new opts = .ok o := by
  obtain ⟨hlen, hall, rfl⟩ := new_eq_ok_iff.mp hok
  refine new_eq_ok_iff.mpr ⟨?_, ?_, ?_⟩
  · rw [← h.length_eq]
    exact hlen
  · intro arg harg
    exact hall arg (h.options.mem_iff.mpr harg)
  · refine (h.options.filterMap assignOf).foldl_eq' ?_ _
    intro a ha b hb o
    by_cases hmember : a.member = b.member
    · -- the same member twice is the same assignment
      rw [filterMap_optionName hall] at hdistinct
      have hinj := List.inj_on_of_nodup_map hdistinct.of_map
      rw [hinj ha hb hmember]
    · exact apply_comm hmember o

/-- With different names all three members are assigned. -/
theorem new_assigns (hdistinct : (args.tail.filterMap optionName).Nodup) (hok : new args = .ok o)
    (m : Member) : assigned o m := by
  obtain ⟨hlen, hall, rfl⟩ := new_eq_ok_iff.mp hok
  rw [filterMap_optionName hall] at hdistinct
  refine (assigned_foldl_iff _ m _).mpr (.inl ?_)
  have hlength : (args.tail.filterMap assignOf).length = args.tail.length :=
    List.filterMap_length_eq_length.mpr hall
  rw [List.length_tail] at hlength
  have huniv : ((args.tail.filterMap assignOf).map Assign.member).toFinset = Finset.univ := by
    refine Finset.eq_univ_of_card _ (Nat.le_antisymm (Finset.card_le_univ _) ?_)
    rw [List.toFinset_card_of_nodup hdistinct.of_map, List.length_map, hlength]
    have hmembers : Fintype.card Member = 3 := by decide
    omega
  rw [← List.mem_toFinset, huniv]
  exact Finset.mem_univ m

theorem load_ok {α : Type} {x : Option α} (h : x.isSome) : ∃ a, load x = .ok a := by
  obtain ⟨a, rfl⟩ := Option.isSome_iff_exists.mp h
  exact ⟨a, rfl⟩

/--
**The order of arguments with different names does not matter: the constructor succeeds
on both or on neither, and the port, the engine and the mode are the same.**
-/
theorem options_any_order (args args' : List Bytes) (hreordered : Reordered args args')
    (hdistinct : (args.tail.filterMap optionName).Nodup) : SameOptions args args' := by
  have hdistinct' : (args'.tail.filterMap optionName).Nodup :=
    (hreordered.options.filterMap optionName).nodup_iff.mp hdistinct
  have hback : Reordered args' args := ⟨hreordered.program.symm, hreordered.options.symm⟩
  refine ⟨⟨?_, ?_⟩, ?_, ?_⟩
  · rintro ⟨o, hok⟩
    exact ⟨o, hreordered.new_eq_ok hdistinct hok⟩
  · rintro ⟨o, hok⟩
    exact ⟨o, hback.new_eq_ok hdistinct' hok⟩
  · intro o o' hok hok'
    rw [hreordered.new_eq_ok hdistinct hok] at hok'
    obtain rfl := Except.ok.inj hok'
    exact ⟨rfl, rfl, rfl⟩
  · intro o hok
    exact ⟨load_ok (new_assigns hdistinct hok .port), load_ok (new_assigns hdistinct hok .engine),
      load_ok (new_assigns hdistinct hok .async)⟩

/-- `--port=80 engine=poll --async=1`. -/
def threeOptions : List Bytes := [text "--port=80", text "engine=poll", text "--async=1"]

private theorem threeOptions_names :
    threeOptions.filterMap optionName = [optPort, optEngine, optAsync] := rfl

/-- The three options, and the other way round. -/
theorem options_any_order_three :
    SameOptions (text "server" :: threeOptions) (text "server" :: threeOptions.reverse) ∧
    new (text "server" :: threeOptions)
      = .ok { mPort := some 80, mEngine := some .poll, mAsync := some true } := by
  have hreordered :
      Reordered (text "server" :: threeOptions) (text "server" :: threeOptions.reverse) := by
    refine ⟨?_, ?_⟩
    · rw [List.head?_cons, List.head?_cons]
    · rw [List.tail_cons, List.tail_cons]
      exact (List.reverse_perm threeOptions).symm
  have hdistinct : (List.tail (text "server" :: threeOptions)).filterMap optionName |>.Nodup := by
    rw [List.tail_cons, threeOptions_names]
    decide
  refine ⟨options_any_order _ _ hreordered hdistinct, ?_⟩
  decide

/-! ### The last port -/

/-- The value of an argument that has one. -/
def optionValue (arg : Bytes) : Option Bytes :=
  match split arg (text "=") with
  | [_, value] => some value
  | _ => none

/-- An accepted port argument assigns the number it is written with, in sixteen bits. -/
theorem assignOf_port (hname : optionName arg = some optPort) (hassign : assignOf arg = some a) :
    ∃ value n, optionValue arg = some value ∧ stoi value = .ok n ∧ a = .port (toUInt16 n) := by
  unfold optionName at hname
  unfold assignOf at hassign
  unfold optionValue
  generalize split arg (text "=") = parts at hname hassign ⊢
  rcases parts with _ | ⟨name, _ | ⟨value, _ | ⟨x, rest⟩⟩⟩
  · injection hname
  · injection hname
  · have hport : plainName name = optPort := Option.some.inj hname
    have hvalue : assignValue (plainName name) value = some a := hassign
    rw [assignValue, if_pos hport] at hvalue
    obtain ⟨n, hn, rfl⟩ := Option.map_eq_some_iff.mp hvalue
    refine ⟨value, n, rfl, ?_, rfl⟩
    cases hstoi : stoi value with
    | error e =>
        rw [hstoi] at hn
        injection hn
    | ok k =>
        rw [hstoi] at hn
        exact congrArg Except.ok (Option.some.inj hn)
  · injection hname

/-- Assignments to the other members keep the port. -/
theorem foldl_apply_mPort (assigns : List Assign) (o : Options)
    (h : ∀ a ∈ assigns, a.member ≠ .port) :
    (assigns.foldl Assign.apply o).mPort = o.mPort := by
  induction assigns generalizing o with
  | nil => rfl
  | cons a assigns ih =>
      rw [List.foldl_cons, ih _ fun b hb => h b (List.mem_cons_of_mem _ hb)]
      have hother := h a List.mem_cons_self
      cases a with
      | port n => exact absurd rfl hother
      | engine e => rfl
      | async b => rfl

/-- The last port argument decides the port. -/
theorem new_mPort {before after : List Bytes} (hok : new args = .ok o)
    (hsplit : args.tail = before ++ arg :: after) (hassign : assignOf arg = some a)
    (hlast : ∀ arg' ∈ after, optionName arg' ≠ some optPort) {n : Nat} (ha : a = .port n) :
    o.mPort = some n := by
  obtain ⟨-, -, rfl⟩ := new_eq_ok_iff.mp hok
  rw [hsplit, List.filterMap_append, List.filterMap_cons_some hassign, List.foldl_append,
    List.foldl_cons, foldl_apply_mPort, ha]
  · rfl
  · intro b hb hmember
    obtain ⟨arg', harg', hb'⟩ := List.mem_filterMap.mp hb
    refine hlast arg' harg' ?_
    rw [optionName_of_assignOf hb', hmember]
    rfl

theorem toUInt16_eq_iff (n : Int) : (toUInt16 n : Int) = n ↔ 0 ≤ n ∧ n < 2 ^ 16 := by
  unfold toUInt16
  omega

/--
**The port is the number written in the last port argument exactly if that number fits
into sixteen bits.**
-/
theorem port_unchanged_iff (args before after : List Bytes) (arg : Bytes) (o : Options)
    (hok : new args = .ok o) (hsplit : args.tail = before ++ arg :: after)
    (hport : optionName arg = some optPort)
    (hlast : ∀ arg' ∈ after, optionName arg' ≠ some optPort) :
    ∃ value n, optionValue arg = some value ∧ stoi value = .ok n ∧
      ((∃ port, o.port = .ok port ∧ (port : Int) = n) ↔ 0 ≤ n ∧ n < 2 ^ 16) := by
  obtain ⟨-, hall, -⟩ := new_eq_ok_iff.mp hok
  have hmem : arg ∈ args.tail := by
    rw [hsplit]
    exact List.mem_append_right _ List.mem_cons_self
  obtain ⟨a, hassign⟩ := Option.isSome_iff_exists.mp (hall arg hmem)
  obtain ⟨value, n, hvalue, hstoi, ha⟩ := assignOf_port hport hassign
  refine ⟨value, n, hvalue, hstoi, ?_⟩
  have hstored : o.port = .ok (toUInt16 n) := by
    rw [port, new_mPort hok hsplit hassign hlast ha]
    rfl
  rw [← toUInt16_eq_iff, hstored]
  constructor
  · rintro ⟨port, hread, heq⟩
    injection hread with hread
    rw [hread]
    exact heq
  · intro heq
    exact ⟨_, rfl, heq⟩

/-- What `threeOptions` are read as. -/
def threeRead : Options := { mPort := some 80, mEngine := some .poll, mAsync := some true }

/-- Port 80, and then the other two. -/
theorem port_unchanged_eighty :
    new (text "server" :: threeOptions) = .ok threeRead ∧
    ∃ value n, optionValue (text "--port=80") = some value ∧ stoi value = .ok n ∧
      ((∃ port, threeRead.port = .ok port ∧ (port : Int) = n) ↔ 0 ≤ n ∧ n < 2 ^ 16) := by
  have hok : new (text "server" :: threeOptions) = .ok threeRead := by decide
  refine ⟨hok, port_unchanged_iff _ [] [text "engine=poll", text "--async=1"] (text "--port=80")
    threeRead hok rfl ?_ ?_⟩
  · decide
  · intro arg' harg'
    rcases List.mem_cons.mp harg' with rfl | hrest
    · decide
    · rw [List.mem_singleton.mp hrest]
      decide

/-- The largest port that the usage text names is stored as 0. -/
theorem port_changed :
    ∃ o, new [text "server", text "engine=poll", text "--async=1", text "--port=65536"] = .ok o ∧
      optionName (text "--port=65536") = some optPort ∧
      optionValue (text "--port=65536") = some (text "65536") ∧
      stoi (text "65536") = .ok 65536 ∧ o.port = .ok 0 ∧
      ¬ ∃ port, o.port = .ok port ∧ (port : Int) = 65536 := by
  refine ⟨{ mPort := some 0, mEngine := some .poll, mAsync := some true }, ?_, ?_, ?_, ?_, rfl, ?_⟩
  · decide
  · decide
  · decide
  · decide
  · rintro ⟨port, hread, heq⟩
    injection hread with hread
    omega

end

end Technopark.Options
