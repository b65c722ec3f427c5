import PathCopy.Proofs.Fidelity
import PathCopy.Proofs.Separation
import PathCopy.Proofs.Sharing
import PathCopy.Proofs.Simulation

/-!
Refinement. The naive way to apply a procedure to a root is to run it on a deep copy of the root.
Whenever an update that deletes nothing succeeds, the naive way succeeds as well, and its result is
the same tree.
-/

namespace PathCopy

open Store

variable {p : Procedure} {roles : Roles} {paths : List WritePath} {st st' : Store}
  {kept : List Value} {φ : Ref → Ref}

/-! ### The start of the two runs -/

theorem parameterScope_map (p : Procedure) (f : Value → Value) (state : Value) (arg : Option Value)
    (hundefined : f .undefined = .undefined) :
    p.parameterScope (f state) (arg.map f) = (p.parameterScope state arg).map f := by
  have harg : (arg.map f).getD .undefined = f (arg.getD .undefined) := by
    cases arg with
    | none => exact hundefined.symm
    | some a => rfl
  rw [Procedure.parameterScope.eq_def, Procedure.parameterScope.eq_def]
  split
  · rfl
  · rfl
  · next s a rest hparams =>
    rw [harg]
    have hput : Scope.put a.name (Binding.map f ⟨arg.getD .undefined, true⟩)
        (Scope.map f [(s.name, ⟨state, true⟩)]) = _ := Scope.put_map
    exact hput

/-- A copy of the state on one side and its image on the other: the runs start alike if the renaming
keeps what the caller holds. -/
theorem simulated_initial {captures : List (String × Value)} {state : Value} {arg : Option Value}
    {others : List Value} (hmirror : Mirror φ st st' (state :: kept))
    (hkeeps : ∀ v ∈ kept, v.rename φ = v) (harg : arg.toList ⊆ kept)
    (hcaptures : captures.map Prod.snd ⊆ kept) (hothers : others ⊆ kept) :
    Simulated φ ((p.spareArgument arg ++ others).map fun v => (v, v))
      (p.initial captures state arg st) (p.initial captures (state.rename φ) arg st') := by
  have hheld : ∀ v ∈ p.spareArgument arg ++ others, v ∈ kept := by
    intro v hv
    rcases List.mem_append.mp hv with hv | hv
    · exact harg (spareArgument_subset p arg hv)
    · exact hothers hv
  refine ⟨fun {v w} hmem => ?_, ?_, hmirror.mono fun v hv => ?_⟩
  · obtain ⟨u, hu, heq⟩ := List.mem_map.mp hmem
    cases heq
    exact (hkeeps v (hheld v hu)).symm
  · have harg' : arg.map (Value.rename φ) = arg := by
      cases arg with
      | none => rfl
      | some a => exact congrArg some (hkeeps a (harg List.mem_cons_self))
    have hparameters := parameterScope_map p (Value.rename φ) state arg rfl
    rw [harg'] at hparameters
    have hcapture : (p.captureScope captures).map (Value.rename φ) = p.captureScope captures :=
      Scope.map_eq_self fun v hv => hkeeps v (hcaptures (mem_values_captureScope hv))
    rw [Procedure.initial, Procedure.initial, hparameters]
    exact congrArg (fun s => [_, s]) hcapture.symm
  · rcases List.mem_append.mp hv with hv | hv
    · rcases mem_values_initial hv with rfl | rfl | hv | hv
      · exact within_of_mem List.mem_cons_self
      · exact within_scalar _
      · exact within_of_mem (List.mem_cons_of_mem _ (harg hv))
      · exact within_of_mem (List.mem_cons_of_mem _ (hcaptures hv))
    · obtain ⟨q, hq, rfl⟩ := List.mem_map.mp hv
      obtain ⟨u, hu, rfl⟩ := List.mem_map.mp hq
      exact within_of_mem (List.mem_cons_of_mem _ (hheld u hu))

/-- If the execution on the image of the state ends well, so does the one on the state, and the
machines mirror each other in the end. -/
theorem Procedure.execute_simulated {captures : List (String × Value)} {state : Value}
    {arg : Option Value} {others : List Value} {flow : Flow} {m : Machine}
    (hmirror : Mirror φ st st' (state :: kept)) (hkeeps : ∀ v ∈ kept, v.rename φ = v)
    (harg : arg.toList ⊆ kept) (hcaptures : captures.map Prod.snd ⊆ kept) (hothers : others ⊆ kept)
    (h : p.execute kept captures (state.rename φ) arg st' = .ok flow m) :
    ∃ b, p.execute others captures state arg st = .ok flow b ∧ Corresponds [] b m := by
  have hstart := simulated_initial (p := p) hmirror hkeeps harg hcaptures hothers
  have hfst : ((p.spareArgument arg ++ others).map fun v => (v, v)).map Prod.fst =
      p.spareArgument arg ++ others := by simp [Function.comp_def]
  have hheld : ((p.spareArgument arg ++ others).map fun v => (v, v)).map Prod.snd ⊆
      p.spareArgument arg ++ kept := by
    have hsnd : ((p.spareArgument arg ++ others).map fun v => (v, v)).map Prod.snd =
        p.spareArgument arg ++ others := by simp [Function.comp_def]
    rw [hsnd]
    exact List.append_subset.mpr ⟨List.subset_append_left _ _,
      List.subset_append_of_subset_right _ hothers⟩
  obtain ⟨flow', b, hrun, rfl, hend⟩ :=
    (Run.mirroring.execBody p.names ⟨rfl, hheld⟩ p.body).ok ⟨φ, hstart⟩ h
  rw [hfst] at hrun
  exact ⟨b, hrun, hend.subset (List.nil_subset _)⟩

namespace Update

variable {u : Update} {root out : Value} {held others : List Value} {w w' : Workspace}

/-- Key paths delete only where the write paths do. -/
theorem effect_ne_of_resolve {arg : Option Value} {resolved : List KeyPath}
    (h : resolvePaths st arg paths = .ok resolved)
    (hpaths : ∀ path ∈ paths, path.effect ≠ .mapDelete) :
    ∀ kp ∈ resolved, kp.effect ≠ .mapDelete := by
  intro kp hkp
  obtain ⟨path, hpath, hpathok⟩ := exists_of_mem_resolvePaths h hkp
  rw [WritePath.effect_of_resolve hpathok]
  exact hpaths path hpath

/-- Whenever an update that deletes nothing succeeds on a root without instances of classes, the
procedure succeeds on a deep copy of the root too, and the two results are the same tree. The deep
copy is unaliased and unfrozen, whatever the root is. -/
theorem run_deepCopy (hsound : w.store.Sound (u.kept root held))
    (hfounded : ∀ v ∈ u.kept root held, w.store.Founded v) (hclass : w.store.ClassFree root)
    (hparse : Procedure.parse u.source = .ok p) (hpaths : p.writePaths = .ok paths)
    (hdelete : ∀ path ∈ paths, path.effect ≠ .mapDelete)
    (happly : u.apply root held w = (.ok out, w')) (hothers : others ⊆ u.kept root held) :
    w.store.IsDeepCopy root (w.store.deepCopy root).2 (w.store.deepCopy root).1 ∧
      ∃ v st', p.run others u.captures (w.store.deepCopy root).1 u.args (w.store.deepCopy root).2 =
        (.ok v, st') ∧ Alike st' w'.store v out := by
  obtain ⟨w₁, resolved, hstore, -, hresolve, hrun⟩ := apply_ok hparse hpaths happly
  rw [← hstore] at hsound hfounded hclass hresolve ⊢
  have hroot : w₁.store.Within (u.kept root held) root := within_of_mem List.mem_cons_self
  refine ⟨deepCopy_isDeepCopy (hsound.mono (List.forall_mem_singleton.mpr hroot))
    (hfounded root List.mem_cons_self), ?_⟩
  obtain ⟨roles, hroles⟩ := exists_roles hpaths
  obtain ⟨s, rest, hparams, -, -⟩ := exists_state_param hroles
  obtain ⟨flow, m, hexecute, hout, hfrozen⟩ := applyPaths_ok hparams hrun
  -- The path copy and the deep copy of the root are made after the same template.
  have hcopy := copy_root_adds hsound resolved
  have hdescribes := w₁.store.copy_describes hsound (w₁.settings.effective u.options).1.keepClass
    hroot hclass (effect_ne_of_resolve hresolve hdelete)
    (describes_template hsound hroot (hfounded root List.mem_cons_self))
  obtain ⟨φ, himage, hkeeps, hmirror⟩ := deepCopy_mirror hsound hfounded hcopy.grown
    (hcopy.available _ List.mem_cons_self) hdescribes
  rw [himage] at hexecute
  obtain ⟨b, hprivate, ψ, hend⟩ := Procedure.execute_simulated hmirror hkeeps
    (args_subset_kept u root held) (captures_subset_kept u root held) hothers hexecute
  refine ⟨((b.scopes.find? s.name).map Binding.value).getD .undefined, b.store, ?_, ?_⟩
  · simp only [Procedure.run, hparams, hprivate]
  · have halike : ∀ v, b.store.Within b.scopes.values v → Alike b.store w'.store v (v.rename ψ) :=
      fun v hv => (hend.mirror.freeze hfrozen).alike
        (hv.trans fun u hu => within_of_mem (List.mem_append_left _ hu))
    rw [hout, hend.scopes, Scopes.find?_map]
    cases hfind : b.scopes.find? s.name with
    | none => exact .scalar _
    | some c => exact halike c.value (within_of_mem (Scopes.mem_values_of_find? hfind))

/-- A workspace with a record that holds a frozen place twice. -/
def travels : Workspace :=
  .fresh none ⟨#[⟨true, .record none (.ofList [("city", .text "Rome")])⟩,
    ⟨false, .record none (.ofList [("home", .node ⟨0⟩), ("away", .node ⟨0⟩)])⟩]⟩

def move : Update :=
  ⟨"(s, a) => \x7b let old = s.away; s.home.city = a; s.last = old \x7d", some (.text "Oslo"), [],
    ⟨none, some false⟩⟩

theorem move_parses : (Procedure.parse move.source).toOption.isSome := by decide +kernel

theorem run_deepCopy_move :
    ∃ out w', move.apply (.node ⟨1⟩) [] travels = (.ok out, w') ∧
      travels.store.IsDeepCopy (.node ⟨1⟩) (travels.store.deepCopy (.node ⟨1⟩)).2
        (travels.store.deepCopy (.node ⟨1⟩)).1 ∧ ∃ v st',
      (Procedure.ofText move.source move_parses).run [] [] (travels.store.deepCopy (.node ⟨1⟩)).1
        move.args (travels.store.deepCopy (.node ⟨1⟩)).2 = (.ok v, st') ∧
      Alike st' w'.store v out := by
  have hlayered : travels.store.Layered := by decide
  have hclass : travels.store.ClassFree (.node ⟨1⟩) := classFree_of_plain (by decide)
  obtain ⟨hpaths, hok⟩ : (Procedure.ofText move.source move_parses).writePaths =
      .ok [⟨[.key "home", .key "city"], .assign⟩, ⟨[.key "last"], .assign⟩] ∧
        (move.apply (.node ⟨1⟩) [] travels).1.toOption.isSome := by
    decide +kernel
  cases happly : move.apply (.node ⟨1⟩) [] travels with
  | mk result w' =>
      cases result with
      | error e =>
          rw [happly] at hok
          cases hok
      | ok out =>
          exact ⟨out, w', rfl, run_deepCopy (hlayered.sound (by decide))
            (fun v _ => hlayered.founded v) hclass (Procedure.parse_ofText move_parses) hpaths
            (by decide) happly (List.nil_subset _)⟩

end Update

end PathCopy
