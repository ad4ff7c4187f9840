/-
A server reads what its command line assigned.

The constructor of `Options` counts the arguments and does not look at which options they
are, so three times the port passes it.  A member is assigned exactly if some argument has
its name, and the server reads all three members.  The engine is never `UNKNOWN`: such an
argument is refused.
-/
import Technopark.Net.Server
import Technopark.Proofs.Options

namespace Technopark.Options

section
variable {args : List Bytes} {arg name value : Bytes} {o : Options}

/-- An accepted argument names an engine that there is. -/
theorem assignValue_engine {e : EngineT} (h : assignValue name value = some (.engine e)) :
    e ≠ .unknown := by
  unfold assignValue at h
  split at h
  · obtain ⟨n, -, hn⟩ := Option.map_eq_some_iff.mp h
    injection hn
  · split at h
    · split at h
      · injection h
      · next hknown =>
          injection h with h
          injection h with h
          rw [← h]
          exact hknown
    · split at h
      · obtain ⟨n, -, hn⟩ := Option.bind_eq_some_iff.mp h
        split at hn
        · injection hn with hn
          injection hn
        · split at hn
          · injection hn with hn
            injection hn
          · injection hn
      · injection h

theorem assignOf_engine {e : EngineT} (h : assignOf arg = some (.engine e)) : e ≠ .unknown := by
  unfold assignOf at h
  generalize split arg (text "=") = parts at h
  rcases parts with _ | ⟨name, _ | ⟨value, _ | ⟨x, rest⟩⟩⟩
  · injection h
  · injection h
  · exact assignValue_engine h
  · injection h

theorem foldl_apply_mEngine (assigns : List Assign) (o : Options)
    (h : ∀ e, Assign.engine e ∈ assigns → e ≠ .unknown) (ho : o.mEngine ≠ some .unknown) :
    (assigns.foldl Assign.apply o).mEngine ≠ some .unknown := by
  induction assigns generalizing o with
  | nil => exact ho
  | cons a assigns ih =>
      refine ih _ (fun e he => h e (List.mem_cons_of_mem _ he)) ?_
      cases a with
      | port n => exact ho
      | engine e =>
          intro hunknown
          exact h e List.mem_cons_self (Option.some.inj hunknown)
      | async b => exact ho

/-- The engine of a command line is never `UNKNOWN`. -/
theorem new_mEngine (hok : new args = .ok o) : o.mEngine ≠ some .unknown := by
  obtain ⟨-, -, rfl⟩ := new_eq_ok_iff.mp hok
  refine foldl_apply_mEngine _ _ ?_ (by simp [unassigned])
  intro e he
  obtain ⟨arg, -, hassign⟩ := List.mem_filterMap.mp he
  exact assignOf_engine hassign

/-! ### The server -/

/-- A server is built if all its options are there. -/
theorem server_new_ok (hassigned : ∀ m, assigned o m) (hknown : o.mEngine ≠ some .unknown) :
    ∃ engine, Server.new o = .ok engine := by
  obtain ⟨port, hport⟩ := load_ok (hassigned .port)
  obtain ⟨type, htype⟩ := load_ok (hassigned .engine)
  obtain ⟨async, hasync⟩ := load_ok (hassigned .async)
  have hnew : Server.new o = getEngine type port async := by
    unfold Server.new engine Options.port Options.async
    rw [htype, hport, hasync]
    rfl
  rw [hnew]
  cases type with
  | unknown =>
      refine absurd ?_ hknown
      cases hstored : o.mEngine with
      | none =>
          rw [hstored] at htype
          injection htype
      | some e =>
          rw [hstored] at htype
          injection htype with he
          rw [he]
  | select => exact ⟨_, rfl⟩
  | poll =>
      cases async with
      | true => exact ⟨_, rfl⟩
      | false => exact ⟨_, rfl⟩

/-- Every member has a value, and the server that reads them is built. -/
structure FullyDefined (o : Options) : Prop where
  members : ∀ m, assigned o m
  server : ∃ engine, Server.new o = .ok engine

/--
**The options of an accepted command line are fully defined exactly if each of the three
names is among its arguments.**
-/
theorem options_fully_defined_iff (args : List Bytes) (o : Options) (hok : new args = .ok o) :
    FullyDefined o ↔ ∀ m : Member, ∃ arg ∈ args.tail, optionName arg = some m.name := by
  constructor
  · rintro ⟨hmembers, -⟩ m
    exact (new_assigned_iff hok m).mp (hmembers m)
  · intro hnamed
    have hmembers : ∀ m, assigned o m := fun m => (new_assigned_iff hok m).mpr (hnamed m)
    exact ⟨hmembers, server_new_ok hmembers (new_mEngine hok)⟩

/-- The three options. -/
theorem options_fully_defined_three :
    new (text "server" :: threeOptions) = .ok threeRead ∧
    (FullyDefined threeRead ↔
      ∀ m : Member, ∃ arg ∈ threeOptions, optionName arg = some m.name) := by
  have hok : new (text "server" :: threeOptions) = .ok threeRead := by decide
  exact ⟨hok, options_fully_defined_iff _ _ hok⟩

/-- Three ports are accepted, and the server switches on an engine nobody assigned. -/
theorem options_undefined_three_ports :
    ∃ o, new [text "server", text "--port=1", text "--port=2", text "--port=3"] = .ok o ∧
      ¬ assigned o .engine ∧ ¬ assigned o .async ∧
      Server.new o = .error (.undefined .uninitialised) := by
  refine ⟨{ mPort := some 3, mEngine := none, mAsync := none }, ?_, ?_, ?_, rfl⟩
  · decide
  · decide
  · decide

end

end Technopark.Options
