import PathCopy.Proofs.Analysis
import PathCopy.Proofs.Persistence
import PathCopy.Proofs.Points

/-!
No value contains itself. Values are built from the bottom up, and a write in place goes to a node
that has one handle, so the value that is written does not lead back to it. Hence at every point of
a run everything at hand is founded if it was at the start, and so is everything that a caller can
hold after any number of updates.
-/

namespace PathCopy

open Store

variable {st st' : Store} {kept vs ws : List Value} {base : ℕ} {π : Policy} {m m' : Machine}
  {v : Value}

/-- No reference at hand dangles, and no value at hand contains itself. The values at hand are those
in the scopes and those in `vs`, which include what the caller keeps. -/
structure Grounded (kept vs : List Value) (m : Machine) : Prop where
  subset : kept ⊆ vs
  sound : m.store.Sound (m.scopes.values ++ vs)
  founded : ∀ v ∈ m.scopes.values ++ vs, m.store.Founded v

theorem Machine.within_bound (m : Machine) (vs : List Value) :
    ∀ v ∈ m.scopes.values, m.store.Within (m.scopes.values ++ vs) v :=
  fun _ hv => within_of_mem (List.mem_append_left vs hv)

theorem Machine.within_held (m : Machine) (vs : List Value) :
    ∀ v ∈ vs, m.store.Within (m.scopes.values ++ vs) v :=
  fun _ hv => within_of_mem (List.mem_append_right _ hv)

namespace Grounded

theorem rehold {ss : Scopes} {writes : List Write} (h : Grounded kept vs m)
    (hss : ∀ v ∈ ss.values, m.store.Within (m.scopes.values ++ vs) v)
    (hws : ∀ v ∈ ws, m.store.Within (m.scopes.values ++ vs) v) (hkept : kept ⊆ ws) :
    Grounded kept ws ⟨m.store, ss, writes⟩ := by
  have hall : ∀ v ∈ ss.values ++ ws, m.store.Within (m.scopes.values ++ vs) v := fun v hv =>
    (List.mem_append.mp hv).elim (hss v) (hws v)
  exact ⟨hkept, h.sound.mono hall, fun v hv => (hall v hv).founded h.founded⟩

theorem cons (h : Grounded kept vs m) (hv : m.store.Within (m.scopes.values ++ vs) v) :
    Grounded kept (v :: vs) m :=
  h.rehold (m.within_bound vs) (List.forall_mem_cons.mpr ⟨hv, m.within_held vs⟩) (List.subset_cons_of_subset v h.subset)

theorem rebind {ss : Scopes} {writes : List Write} (h : Grounded kept vs m)
    (hss : ∀ v ∈ ss.values, v ∈ vs ∨ v ∈ m.scopes.values) :
    Grounded kept vs ⟨m.store, ss, writes⟩ :=
  h.rehold (fun v hv => (hss v hv).elim (m.within_held vs v) (m.within_bound vs v))
    (m.within_held vs) h.subset

theorem alloc (h : Grounded kept vs m) {body : Body} (hbody : body.children ⊆ vs) :
    Grounded kept ((m.store.alloc body).1 :: vs) { m with store := (m.store.alloc body).2 } := by
  have hwithin : ∀ c ∈ body.children, m.store.Within (m.scopes.values ++ vs) c := fun c hc =>
    m.within_held vs c (hbody hc)
  have hold : ∀ v, m.store.Within (m.scopes.values ++ vs) v →
      m.store.AgreeBelow (m.store.alloc body).2 v := fun _ hv =>
    h.sound.agreeBelow (extends_alloc m.store body) hv
  -- The new node takes the place of what it is made of.
  have hroots : m.scopes.values ++ (m.store.alloc body).1 :: vs ⊆
      (m.store.alloc body).1 :: (m.scopes.values ++ vs) := by
    intro u hu
    simp only [List.mem_append, List.mem_cons] at hu ⊢
    tauto
  refine ⟨List.subset_cons_of_subset _ h.subset, fun r hr => ?_, fun v hv => ?_⟩
  · rw [size_alloc]
    rcases within_of_alloc h.sound hwithin (within_node_iff.mpr (hr.mono hroots)) with hr | hr
    · cases hr
      exact Nat.lt_succ_self _
    · exact Nat.lt_succ_of_lt (h.sound r (within_node_iff.mp hr))
  · rcases List.mem_cons.mp (hroots hv) with rfl | hv
    · exact founded_alloc (fun c hc => hold c (hwithin c hc)) fun c hc =>
        (hwithin c hc).founded h.founded
    · exact (hold v (within_of_mem hv)).founded (h.founded v hv)

theorem wrote {new : List Value} {w : Write} (h : Grounded kept vs m)
    (hwrote : Run.Wrote vs new w m m') (hnew : new ⊆ vs) : Grounded kept vs m' := by
  cases hwrote with
  | assigned _ _ _ _ hv =>
      refine h.rebind fun u hu => ?_
      rcases Scopes.mem_values_setValue hu with rfl | hu
      · exact .inl (hnew hv)
      · exact .inr hu
  | @stored b st' hbound hwritten =>
      obtain ⟨others, hcounted, hheld, -⟩ := Run.counted_others hbound vs
      obtain ⟨t, body, rfl, hclaimed, hreach, halone, hbody⟩ := hwritten.exists_setBody hcounted
      have ht : m.store.Within (m.scopes.values ++ vs) (.node t) :=
        (m.within_bound vs _ (Scopes.mem_values_of_find? hbound)).reaches hreach
      -- What is written has a handle beside the one that leads to the node.
      have hchildren : ∀ c ∈ body.children,
          m.store.Within (m.scopes.values ++ vs) c ∧ ¬ m.store.Reaches c (.node t) := by
        intro c hc
        rcases hbody c hc with hc | hc
        · exact ⟨ht.reaches (reaches_of_mem_children hc), halone c (List.mem_append_left _ hc)⟩
        · exact ⟨m.within_held vs c (hnew hc), halone c (List.mem_append_right _ (hheld (hnew hc)))⟩
      refine ⟨h.subset, fun r hr => ?_, fun v hv => ?_⟩
      · rw [size_setBody]
        exact h.sound r (within_node_iff.mp
          (within_of_setBody (fun c hc => (hchildren c hc).1) (within_node_iff.mpr hr)))
      · exact (h.founded v hv).setBody hclaimed.index_lt fun c hc =>
          ⟨(hchildren c hc).1.founded h.founded, (hchildren c hc).2⟩

end Grounded

/-- Every run keeps all values founded. -/
theorem grounded_invariant : Run.Invariant π kept base (Grounded kept) where
  drop {vs ws m} h hsub hkept :=
    h.rehold (m.within_bound vs) (fun v hv => m.within_held vs v (hsub hv)) hkept
  scalar a h := h.cons (within_scalar a)
  child {vs m r c} h hr hc :=
    h.cons ((m.within_held vs _ hr).reaches (reaches_of_mem_children hc))
  lookup {vs m name b} h hb := h.cons (m.within_bound vs _ (Scopes.mem_values_of_find? hb))
  alloc h hbody := h.alloc hbody
  define _ h _ hv := by
    refine h.rebind fun u hu => ?_
    rcases Scopes.mem_values_define hu with rfl | hu
    · exact .inl hv
    · exact .inr hu
  wrote h hwrote hnew _ := h.wrote hwrote hnew
  enter h := h.rebind fun _ hu => .inr hu
  leave h _ := h.rebind fun _ hu => .inr (Scopes.mem_values_tail hu)

namespace Procedure

variable {captures : List (String × Value)} {state : Value} {arg : Option Value}
  {held : List Value}

/-- What the run of a procedure is given, and what its caller holds. -/
def inputs (captures : List (String × Value)) (state : Value) (arg : Option Value)
    (held : List Value) : List Value :=
  state :: (arg.toList ++ captures.map Prod.snd ++ held)

theorem grounded_initial (p : Procedure) (hsound : st.Sound (inputs captures state arg held))
    (hfounded : ∀ v ∈ inputs captures state arg held, st.Founded v) :
    Grounded held (p.spareArgument arg ++ held) (p.initial captures state arg st) := by
  have harg : ∀ v ∈ arg.toList, st.Within (inputs captures state arg held) v := fun v hv =>
    within_of_mem (List.mem_cons_of_mem _ (List.mem_append_left _ (List.mem_append_left _ hv)))
  have hall : ∀ v ∈ (p.initial captures state arg st).scopes.values ++
      (p.spareArgument arg ++ held), st.Within (inputs captures state arg held) v := by
    intro v hv
    rcases List.mem_append.mp hv with hv | hv
    · rcases mem_values_initial hv with rfl | rfl | hv | hv
      · exact within_of_mem List.mem_cons_self
      · exact within_scalar _
      · exact harg v hv
      · exact within_of_mem
          (List.mem_cons_of_mem _ (List.mem_append_left _ (List.mem_append_right _ hv)))
    · rcases List.mem_append.mp hv with hv | hv
      · exact harg v (spareArgument_subset p arg hv)
      · exact within_of_mem (List.mem_cons_of_mem _ (List.mem_append_right _ hv))
  exact ⟨List.subset_append_right _ held, hsound.mono hall, fun v hv => (hall v hv).founded hfounded⟩

theorem run_founded (p : Procedure) (hsound : st.Sound (inputs captures state arg held))
    (hfounded : ∀ v ∈ inputs captures state arg held, st.Founded v)
    (hrun : p.run held captures state arg st = (.ok v, st')) :
    st'.Sound [v] ∧ st'.Founded v := by
  have hself : ∀ {st : Store} {roots : List Value} {v : Value}, st.Sound roots →
      (∀ u ∈ roots, st.Founded u) → st.Within roots v → st.Sound [v] ∧ st.Founded v :=
    fun hsound hfounded hv =>
      ⟨hsound.mono (List.forall_mem_singleton.mpr hv), hv.founded hfounded⟩
  have hafter := (grounded_invariant.execute (Run.enforced_free p.names _)
    (Policy.free_allowsBody p.body) (List.subset_append_right _ held)
    (p.grounded_initial hsound hfounded)).1
  rw [run.eq_def] at hrun
  split at hrun
  · cases hrun
    exact hself hsound hfounded (within_of_mem List.mem_cons_self)
  · next s rest hparams =>
    cases hexecute : p.execute held captures state arg st with
    | error e m => simp [hexecute] at hrun
    | ok flow m =>
        rw [hexecute] at hrun hafter
        cases hrun
        refine hself hafter.sound hafter.founded ?_
        cases hfind : m.scopes.find? s.name with
        | none => exact within_scalar _
        | some b => exact m.within_bound _ _ (Scopes.mem_values_of_find? hfind)

/-- No node is ever inside itself: from an acyclic state, argument and captures every point of a run
is acyclic, with all that is bound, at hand, or held by the caller. So a walk that goes down from
the result comes to an end; it is no deeper than the store is large, and a comparison with another
value never stops short. -/
theorem acyclic_throughout (p : Procedure) (hsound : st.Sound (inputs captures state arg held))
    (hacyclic : st.Acyclic (inputs captures state arg held)) :
    (∀ pt : Point, (p.phase held captures state arg st).Passes p.names pt → held ⊆ pt.values ∧
      pt.machine.store.Acyclic (pt.machine.scopes.values ++ pt.values)) ∧
    ∀ v st', p.run held captures state arg st = (.ok v, st') →
      Acc (fun c u => st'.Child u c) v ∧ st'.Shallow st'.size v ∧
        ∀ n w, st'.size ≤ n → st'.equalTo n v w = st'.equal v w := by
  have hfounded := hacyclic.founded hsound
  refine ⟨fun pt hpt => ?_, fun v st' hrun => ?_⟩
  · have hpoint := grounded_invariant.passes hpt (List.subset_append_right _ held)
      (p.grounded_initial hsound hfounded)
    exact ⟨hpoint.1, acyclic_of_founded hpoint.2.founded⟩
  · obtain ⟨hsound', hfounded'⟩ := p.run_founded hsound hfounded hrun
    have hshallow := hfounded'.shallow_size fun r hr => hsound' r ⟨v, List.mem_cons_self, hr⟩
    exact ⟨hfounded'.acc, hshallow, fun n w hn => hshallow.equalTo_eq hn w⟩

def pieces : Store :=
  ⟨#[⟨false, .record none (.ofList [("name", .text "first")])⟩, ⟨false, .list []⟩]⟩

/-- A procedure after which the argument stands at three places inside the state. -/
def join : String := "(s, a) => \x7b s.next = a; s.pair = [a, s.next] \x7d"

theorem join_parses : (parse join).toOption.isSome := by decide +kernel

theorem acyclic_throughout_join :
    (∀ pt : Point, ((ofText join join_parses).phase [] [] (.node ⟨0⟩) (some (.node ⟨1⟩))
        pieces).Passes (ofText join join_parses).names pt →
      pt.machine.store.Acyclic (pt.machine.scopes.values ++ pt.values)) ∧
    ∃ v st', (ofText join join_parses).run [] [] (.node ⟨0⟩) (some (.node ⟨1⟩)) pieces =
        (.ok v, st') ∧ Acc (fun c u => st'.Child u c) v ∧ st'.Shallow st'.size v := by
  have hlayered : pieces.Layered := by decide
  have hsound : pieces.Sound (inputs [] (.node ⟨0⟩) (some (.node ⟨1⟩)) []) :=
    hlayered.sound (by decide)
  have hall := (ofText join join_parses).acyclic_throughout hsound
    (acyclic_of_founded fun v _ => hlayered.founded v)
  refine ⟨fun pt hpt => (hall.1 pt hpt).2, ?_⟩
  have hok : ((ofText join join_parses).run [] [] (.node ⟨0⟩) (some (.node ⟨1⟩))
      pieces).1.toOption.isSome := by decide +kernel
  cases hrun : (ofText join join_parses).run [] [] (.node ⟨0⟩) (some (.node ⟨1⟩)) pieces with
  | mk result st' =>
      cases result with
      | error e =>
          rw [hrun] at hok
          cases hok
      | ok v =>
          obtain ⟨hacc, hshallow, -⟩ := hall.2 v st' hrun
          exact ⟨v, st', rfl, hacc, hshallow⟩

/-- The text of a procedure that would put the state inside itself. -/
def tie : String := "s => \x7b s.self = s \x7d"

theorem tie_parses : (parse tie).toOption.isSome := by decide +kernel

-- The state has a second handle while it is written, so the write is refused.
example : ((ofText tie tie_parses).run [] [] (.node ⟨0⟩) none pieces).1.toOption.isNone := by
  decide +kernel

end Procedure

namespace Update

variable {u : Update} {root out : Value} {held : List Value} {w w' : Workspace}

theorem apply_founded (hsound : w.store.Sound (u.kept root held))
    (hfounded : ∀ v ∈ u.kept root held, w.store.Founded v)
    (happly : u.apply root held w = (.ok out, w')) : w'.store.Founded out := by
  have hcompile := store_compile w u.source
  unfold apply at happly
  split at happly
  · cases happly
  · next compiled w₁ h =>
    rw [h] at hcompile
    split at happly
    · cases happly
    · split at happly
      · cases happly
      · next paths _ =>
        simp only at hcompile
        rw [← hcompile] at hsound hfounded
        -- The inputs of the run are the copy and what the caller holds.
        have hcopy := copy_root_adds (u := u) hsound paths
        have hall := hcopy.append hsound (.old hsound hcopy.grown fun _ => within_of_mem)
        have hinputs := hall.subset (List.cons_subset_cons _ (List.append_subset.mpr
          ⟨List.append_subset.mpr ⟨args_subset_kept u root held, captures_subset_kept u root held⟩,
            List.Subset.refl _⟩))
        unfold applyPaths at happly
        dsimp only at happly
        split at happly
        · cases happly
        · next v hv =>
          cases happly
          have hrun := compiled.procedure.run_founded
            (hinputs.grown.sound hsound hinputs.available) (hinputs.founded hfounded)
            (Prod.ext hv rfl)
          exact (frozen_finish _ _ _).agreeBelow.founded hrun.2

end Update

namespace Caller

variable {c c' : Caller}

theorem Step.founded (h : Step c c') (hsound : c.store.Sound c.held)
    (hfounded : ∀ v ∈ c.held, c.store.Founded v) : ∀ v ∈ c'.held, c'.store.Founded v := by
  have hext := (h.grown hsound).1.toExtends
  -- What was held before is as it was, whatever the step added.
  have hwithin : ∀ v, c.store.Within c.held v → c'.store.Founded v := fun v hv =>
    (hsound.agreeBelow hext hv).founded (hv.founded hfounded)
  cases h with
  | update u root others covers within =>
      intro v hv
      rcases List.mem_append.mp hv with hv | hv
      · cases hresult : u.apply root others c.workspace with
        | mk result w' =>
            cases result with
            | error e =>
                rw [hresult] at hv
                cases hv
            | ok out =>
                rw [hresult] at hv
                rw [List.mem_singleton.mp hv]
                exact Update.apply_founded (hsound.mono within)
                  (fun v hv => (within v hv).founded hfounded) hresult
      · exact hwithin v (within_of_mem hv)
  | make body within =>
      have hnew : (c.store.alloc body).2.Founded (c.store.alloc body).1 :=
        founded_alloc (fun v hv => hsound.agreeBelow (extends_alloc c.store body) (within v hv))
          fun v hv => (within v hv).founded hfounded
      exact List.forall_mem_cons.mpr ⟨hnew, fun v hv => hwithin v (within_of_mem hv)⟩
  | freeze v => exact fun u hu => hwithin u (within_of_mem hu)
  | hold held within => exact fun v hv => hwithin v (within v hv)
  | configure settings => exact hfounded

/-- No value that a caller holds ever contains itself. -/
theorem Steps.founded (h : Steps c c') (hsound : c.store.Sound c.held)
    (hfounded : ∀ v ∈ c.held, c.store.Founded v) : ∀ v ∈ c'.held, c'.store.Founded v := by
  induction h with
  | refl => exact hfounded
  | tail hsteps hstep ih => exact hstep.founded (Steps.extends hsteps hsound).2 ih

end Caller

end PathCopy
