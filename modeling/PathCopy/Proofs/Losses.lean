import PathCopy.Proofs.Execution
import PathCopy.Proofs.Sharing

/-!
Losses. The copy lacks the map entries that the text only deletes, before any of it has run. An
entry that is missing from the result was deleted or replaced by a write of the run, if the deletes
of the text that the copy obeyed are executed, at the keys that the argument had for them. A delete
behind a `return` is not executed, and its entry is lost all the same.
-/

namespace PathCopy

open Store

def Store.HoldsEntry (st : Store) (v : Value) (d : List String) : Prop :=
  st.IsEntry v d ∧ (st.at? v d).isSome

instance (st : Store) (v : Value) (d : List String) : Decidable (st.HoldsEntry v d) :=
  inferInstanceAs (Decidable (st.IsEntry v d ∧ (st.at? v d).isSome))

/-- A write through the state that deletes the map entry, or replaces its map or what is above. -/
def Write.Takes (state : Name) (d : List String) (w : Write) : Prop :=
  w.root = state ∧ (w.keys = d ∧ w.effect = .mapDelete ∨ w.keys <+: d.dropLast)

instance (state : Name) (d : List String) (w : Write) : Decidable (w.Takes state d) :=
  inferInstanceAs (Decidable (w.root = state ∧
    (w.keys = d ∧ w.effect = .mapDelete ∨ w.keys <+: d.dropLast)))

/-- Whether a segment stands for one key all along a run with the given journal. -/
def Segment.Steady (roles : Roles) (st : Store) (arg : Value) (writes : List Write) :
    Segment → Prop
  | .key _ => True
  | .whole => ¬ Rebound roles writes
  | .named field => ¬ Rebound roles writes ∧ (field = "size" → st.kind arg ≠ .map)

/-! ### Positions and prefixes -/

theorem prefix_dropLast {keys d : List String} (h : keys <+: d) (hne : keys ≠ d) :
    keys <+: d.dropLast := by
  obtain ⟨rest, rfl⟩ := h
  have hrest : rest ≠ [] := by
    rintro rfl
    exact hne (List.append_nil keys).symm
  rw [List.dropLast_append_of_ne_nil hrest]
  exact List.prefix_append _ _

theorem Diverge.append {keys q : List String} (h : Diverge keys q) (rest : List String) :
    Diverge keys (q ++ rest) := by
  induction keys generalizing q with
  | nil => cases q <;> exact h.elim
  | cons key keys ih =>
      cases q with
      | nil => exact h.elim
      | cons k q => exact h.imp id ih

section Entries

variable {st st' : Store} {u v : Value} {d : List String}

theorem Store.HoldsEntry.of_eq (h : st.HoldsEntry v d)
    (hmap : st'.at? u d.dropLast = st.at? v d.dropLast)
    (hkind : ∀ w, st.at? v d.dropLast = some w → st'.kind w = st.kind w)
    (hentry : (st.at? v d).isSome → (st'.at? u d).isSome) : st'.HoldsEntry u d := by
  obtain ⟨⟨hne, hkinds⟩, hsome⟩ := h
  refine ⟨⟨hne, ?_⟩, hentry hsome⟩
  obtain ⟨w, hw, hwmap⟩ := Option.map_eq_some_iff.mp hkinds
  rw [hmap, hw, Option.map_some, hkind w hw, hwmap]

theorem Store.AgreeBelow.holdsEntry (h : st.AgreeBelow st' v) (hd : st.HoldsEntry v d) :
    st'.HoldsEntry v d :=
  hd.of_eq h.at?_eq (fun _ hw => h.kind_eq (reaches_of_at? hw)) fun hsome => by rwa [h.at?_eq]

/-- An entry outlasts a write that neither deletes it nor replaces what is above. -/
theorem Store.Written.holdsEntry {counts : Array ℕ} {others new : List Value} {keys : List String}
    (h : st.Written counts v new keys st') (hcounted : st.Counted counts (v :: others))
    (hd : st.HoldsEntry v d) (hnew : keys = d → new ≠ []) (habove : ¬ keys <+: d.dropLast) :
    st'.HoldsEntry v d := by
  have hconcat : d.dropLast ++ [d.getLast hd.1.1] = d := List.dropLast_append_getLast hd.1.1
  by_cases hq : d.dropLast <+: keys.dropLast
  · refine hd.of_eq (h.at?_above hcounted hq) (fun w _ => h.kind_eq w) fun hsome => ?_
    by_cases heq : keys = d
    · obtain ⟨c, hc⟩ := List.exists_mem_of_ne_nil new (hnew heq)
      rw [← heq, h.at?_self hcounted hc]
      rfl
    by_cases hbelow : d <+: keys.dropLast
    · rwa [h.at?_above hcounted hbelow]
    -- The write is at another entry of the same map, or below one.
    · have hdiverge : Diverge keys d :=
        diverge_of_not_prefix (fun hk => habove (prefix_dropLast hk heq)) fun hk =>
          hbelow (prefix_dropLast hk (Ne.symm heq))
      rwa [h.at?_eq hcounted hdiverge]
  · have hdiverge : Diverge keys d.dropLast :=
      diverge_of_not_prefix habove fun hprefix =>
        hq (prefix_dropLast hprefix fun heq => habove (heq ▸ List.prefix_refl _))
    refine hd.of_eq (h.at?_eq hcounted hdiverge) (fun w _ => h.kind_eq w) fun hsome => ?_
    have hfar := hdiverge.append [d.getLast hd.1.1]
    rw [hconcat] at hfar
    rwa [h.at?_eq hcounted hfar]

/-- What the paths do not drop is in the copy, with its map. -/
theorem Store.copy_holdsEntry (hsound : st.Sound [v]) (keepClass : Bool) (paths : List KeyPath)
    (hd : st.HoldsEntry v d) (hlost : ¬ st.Lost v paths d) :
    (st.copy keepClass v paths).2.store.HoldsEntry (st.copy keepClass v paths).1 d := by
  obtain ⟨⟨hne, hmap⟩, hsome⟩ := hd
  obtain ⟨w, hw, hwmap⟩ := Option.map_eq_some_iff.mp hmap
  obtain ⟨c, hc⟩ := Option.isSome_iff_exists.mp hsome
  have habove : ¬ st.Lost v paths d.dropLast := fun ⟨e, he, hentry⟩ =>
    hlost ⟨e, he.trans (List.dropLast_prefix d), hentry⟩
  have hv : st.Within [v] v := within_of_mem List.mem_cons_self
  obtain ⟨w', hw', -⟩ := copy_kept hsound keepClass hv hw habove
  obtain ⟨c', hc', -⟩ := copy_kept hsound keepClass hv hc hlost
  refine ⟨⟨hne, ?_⟩, by rw [hc']; rfl⟩
  rw [hw', Option.map_some, (st.copy_lays hsound keepClass hv paths).kinds hw hw', hwmap]

end Entries

/-! ### During the run -/

variable {p : Procedure} {roles : Roles} {paths : List WritePath} {st : Store}
  {kept vs : List Value} {arg : Value} {d : List String} {m : Machine}

/-- The state holds the entry until a write takes it. -/
theorem lasting_entry : Lasting roles paths st arg fun s v writes =>
    s.HoldsEntry v d ∨ ∃ w ∈ writes, w.Takes roles.state d where
  agree hagree h := h.imp hagree.holdsEntry id
  logged w h := h.imp id fun ⟨wr, hwr, htakes⟩ => ⟨wr, List.mem_cons_of_mem w hwr, htakes⟩
  wrote := by
    intro s s' v writes counts others new w h hcounted hwritten herased hroot _
    by_cases htakes : w.Takes roles.state d
    · exact .inr ⟨w, List.mem_cons_self, htakes⟩
    · refine h.imp (fun hheld => hwritten.holdsEntry hcounted hheld ?_ ?_) ?_
      · exact fun hkeys hnew => htakes ⟨hroot, .inl ⟨hkeys, herased hnew⟩⟩
      · exact fun habove => htakes ⟨hroot, .inr habove⟩
      · exact fun ⟨wr, hwr, htakes⟩ => ⟨wr, List.mem_cons_of_mem w hwr, htakes⟩

/-- A performed write whose segments are steady is at the keys that its path was resolved to. -/
theorem Performed.keys_eq {path : WritePath} {keys : List String} {writes : List Write}
    (h : Performed roles st arg writes path)
    (hsteady : ∀ s ∈ path.segments, s.Steady roles st arg writes)
    (hresolve : path.resolve st arg = .ok ⟨keys, path.effect⟩) :
    ∃ w ∈ writes, w.root = roles.state ∧ w.effect = path.effect ∧ w.keys = keys := by
  obtain ⟨w, hw, hroot, heffect, hmatches, hspells⟩ := h
  have hspelled : List.Forall₂ (Segment.Spells st arg) path.segments w.keys := by
    by_cases hre : Rebound roles writes
    · -- Then the text has all keys.
      refine List.forall₂_iff_zip.mpr ⟨hmatches.length_eq, fun {s k} hmem => ?_⟩
      have hs := hsteady s (List.of_mem_zip hmem).1
      cases s with
      | key text => exact (List.forall₂_iff_zip.mp hmatches).2 hmem
      | whole => exact absurd hre hs
      | named field => exact absurd hre hs.1
    · exact hspells hre
  have hsize : .named "size" ∈ path.segments → st.kind arg ≠ .map := fun hmem =>
    (hsteady _ hmem).2 rfl
  have hkeys := WritePath.keys_of_resolve hresolve hspelled hsize
  exact ⟨w, hw, hroot, heffect, (congrArg KeyPath.keys hkeys).symm⟩

/-! ### Updates -/

namespace Update

variable {u : Update} {root out : Value} {held : List Value} {w w' : Workspace}
  {resolved : List KeyPath}

/-- A map entry of the root that is missing from the result was taken by a write of the run. If the
copy already lacked it, this asks that one of the deletes at its position, or above, stands before
any `return` and has keys that stay what the argument gave. -/
theorem entry_taken (hsound : w.store.Sound (u.kept root held))
    (hparse : Procedure.parse u.source = .ok p) (hroles : p.roles = .ok roles)
    (hpaths : p.writePaths = .ok paths)
    (hresolve : resolvePaths w.store u.args paths = .ok resolved)
    (hdelete : w.store.Lost root resolved d → ∀ live, p.liveWrites roles = .ok live →
      ∃ path ∈ live, ∃ keys, keys <+: d ∧
        path.resolve w.store (u.args.getD .undefined) = .ok ⟨keys, .mapDelete⟩ ∧
        ∀ s ∈ path.segments,
          s.Steady roles w.store (u.args.getD .undefined) (u.executed p resolved root held w).writes)
    (happly : u.apply root held w = (.ok out, w')) (hheld : w.store.HoldsEntry root d)
    (hgone : ¬ w'.store.HoldsEntry out d) :
    ∃ wr ∈ (u.executed p resolved root held w).writes, wr.Takes roles.state d := by
  obtain ⟨s, rest, hparams, hname, hinitial⟩ := exists_state_param hroles
  obtain ⟨flow, m, hexecute, hmachine, hout, hfrozen⟩ :=
    executed_ok hparse hpaths hparams hresolve happly
  rw [hmachine] at hdelete ⊢
  have hcopy := copy_root_adds (u := u) hsound resolved
  have hbody : (foresight p roles paths w.store (u.args.getD .undefined)).AllowsBody p.body :=
    allowsBody_foresight hroles hpaths
  have hstart := supplied_initial hroles hcopy.grown (hcopy.available _ List.mem_cons_self)
    (args_subset_kept u root held) (captures_subset_kept u root held)
  by_cases hlost : w.store.Lost root resolved d
  · -- The copy lacks the entry. The run performs the delete.
    obtain ⟨live, hlive, -⟩ := exists_liveWrites hroles hpaths
    obtain ⟨path, hpath, keys, hprefix, hresolved, hsteady⟩ := hdelete hlost live hlive
    have hperformed := performed_execute hsound within_args (List.subset_append_right _ _) hbody
      hstart hlive hexecute path hpath
    have hdeletes : path.effect = .mapDelete := (WritePath.effect_of_resolve hresolved).symm
    obtain ⟨wr, hwr, hroot, heffect, rfl⟩ := hperformed.keys_eq hsteady (hdeletes ▸ hresolved)
    refine ⟨wr, hwr, hroot, ?_⟩
    by_cases heq : wr.keys = d
    · exact .inl ⟨heq, heffect.trans hdeletes⟩
    · exact .inr (prefix_dropLast hprefix heq)
  · have hsingle : w.store.Sound [root] :=
      hsound.mono (List.forall_mem_singleton.mpr (within_of_mem List.mem_cons_self))
    -- The copy has the entry, and every step of the run keeps it or takes it.
    have hentry := copy_holdsEntry hsingle (w.settings.effective u.options).1.keepClass resolved
      hheld hlost
    obtain ⟨b₀, hb₀, hvalue⟩ := hinitial u.captures
      (w.store.copy (w.settings.effective u.options).1.keepClass root resolved).1 u.args
      (w.store.copy (w.settings.effective u.options).1.keepClass root resolved).2.store
    have hend := ((watched_invariant hsound (lasting_entry (d := d))).execute
      ((enforced_foresight hsound within_args).mono fun h => h.toSupplied) hbody
      (List.subset_append_right _ _) ⟨hstart, b₀, hb₀, .inl (hvalue ▸ hentry)⟩).1
    rw [hexecute, Machine.after] at hend
    obtain ⟨b, hb, hlasts⟩ := hend.placed
    refine hlasts.resolve_left fun hremains => hgone ?_
    rw [hout, hname, hb]
    exact hfrozen.agreeBelow.holdsEntry hremains

def archive : Workspace :=
  .fresh none ⟨#[⟨false, .map (.ofList [("old", .bool true), ("new", .bool false)])⟩,
    ⟨false, .record none (.ofList [("marks", .node ⟨0⟩)])⟩,
    ⟨true, .map (.ofList [("size", .text "old")])⟩]⟩

def unmark : Update :=
  ⟨"(s, a) => \x7b s.marks.delete(a); s.last = a \x7d", some (.text "old"), [], ⟨none, some false⟩⟩

theorem entry_taken_unmark :
    ∃ p roles resolved out w', Procedure.parse unmark.source = .ok p ∧ p.roles = .ok roles ∧
      unmark.apply (.node ⟨1⟩) [] archive = (.ok out, w') ∧
      archive.store.HoldsEntry (.node ⟨1⟩) ["marks", "old"] ∧
      ¬ w'.store.HoldsEntry out ["marks", "old"] ∧
      ∃ wr ∈ (unmark.executed p resolved (.node ⟨1⟩) [] archive).writes,
        wr.Takes roles.state ["marks", "old"] := by
  have hsound : archive.store.Sound (unmark.kept (.node ⟨1⟩) []) :=
    Store.Layered.sound (by decide) (by decide)
  have hresolve : resolvePaths archive.store unmark.args
      [⟨[.key "marks", .whole], .mapDelete⟩, ⟨[.key "last"], .assign⟩] =
        .ok [⟨["marks", "old"], .mapDelete⟩, ⟨["last"], .assign⟩] := by decide +kernel
  obtain ⟨⟨p, hp, hroles, hpaths, hlive, hbound⟩, out, hout, hgone⟩ :
      (∃ p ∈ (Procedure.parse unmark.source).toOption, p.roles = .ok ⟨⟨1⟩, some ⟨2⟩⟩ ∧
        p.writePaths =
          .ok [⟨[.key "marks", .whole], .mapDelete⟩, ⟨[.key "last"], .assign⟩] ∧
        p.liveWrites ⟨⟨1⟩, some ⟨2⟩⟩ =
          .ok [⟨[.key "marks", .whole], .mapDelete⟩, ⟨[.key "last"], .assign⟩] ∧
        ¬ Rebound ⟨⟨1⟩, some ⟨2⟩⟩ (unmark.executed p
          [⟨["marks", "old"], .mapDelete⟩, ⟨["last"], .assign⟩] (.node ⟨1⟩) [] archive).writes) ∧
      ∃ out ∈ (unmark.apply (.node ⟨1⟩) [] archive).1.toOption,
        ¬ (unmark.apply (.node ⟨1⟩) [] archive).2.store.HoldsEntry out ["marks", "old"] := by
    decide +kernel
  have hheld : archive.store.HoldsEntry (.node ⟨1⟩) ["marks", "old"] := by decide
  have happly : unmark.apply (.node ⟨1⟩) [] archive =
      (.ok out, (unmark.apply (.node ⟨1⟩) [] archive).2) := Prod.ext (eq_ok_of_mem_toOption hout) rfl
  have hparse := eq_ok_of_mem_toOption hp
  refine ⟨_, _, _, _, _, hparse, hroles, happly, hheld, hgone,
    entry_taken hsound hparse hroles hpaths hresolve (fun _ live hlive' => ?_) happly hheld hgone⟩
  rw [hlive] at hlive'
  cases hlive'
  refine ⟨_, List.mem_cons_self, ["marks", "old"], List.prefix_refl _, by decide, fun s hs => ?_⟩
  simp only [List.mem_cons, List.not_mem_nil, or_false] at hs
  rcases hs with rfl | rfl
  · trivial
  · exact hbound

/-- An update whose result lacks a map entry of the root that no write of the run took. -/
def Loses (u : Update) (root : Value) (w : Workspace) (d : List String) : Prop :=
  ∃ p roles paths resolved, Procedure.parse u.source = .ok p ∧ p.roles = .ok roles ∧
    p.writePaths = .ok paths ∧ resolvePaths w.store u.args paths = .ok resolved ∧
    w.store.HoldsEntry root d ∧
    (∃ out ∈ (u.apply root [] w).1.toOption, ¬ (u.apply root [] w).2.store.HoldsEntry out d) ∧
    ∀ wr ∈ (u.executed p resolved root [] w).writes, ¬ wr.Takes roles.state d

def hasty : Update := ⟨"s => \x7b return; s.marks.delete('old') \x7d", none, [], ⟨none, some false⟩⟩

def redirected : Update :=
  ⟨"(s, a) => \x7b a = 'new'; s.marks.delete(a) \x7d", some (.text "old"), [], ⟨none, some false⟩⟩

def tallied : Update :=
  ⟨"(s, a) => \x7b s.marks.delete(a.size) \x7d", some (.node ⟨2⟩), [], ⟨none, some false⟩⟩

theorem loses_of_parsed {u : Update} {root : Value} {w : Workspace} {d : List String} (roles : Roles)
    (paths : List WritePath) (resolved : List KeyPath)
    (hloses : (∃ p ∈ (Procedure.parse u.source).toOption, p.roles = .ok roles ∧
      p.writePaths = .ok paths ∧ ∀ wr ∈ (u.executed p resolved root [] w).writes,
        ¬ wr.Takes roles.state d) ∧
      ∃ out ∈ (u.apply root [] w).1.toOption, ¬ (u.apply root [] w).2.store.HoldsEntry out d)
    (hresolve : resolvePaths w.store u.args paths = .ok resolved)
    (hheld : w.store.HoldsEntry root d) : u.Loses root w d := by
  obtain ⟨⟨p, hp, hroles, hpaths, htakes⟩, hgone⟩ := hloses
  exact ⟨p, roles, paths, resolved, eq_ok_of_mem_toOption hp, hroles, hpaths, hresolve, hheld, hgone,
    htakes⟩

/-- Every part of the condition on the deletes is needed. -/
theorem loses_hasty_redirected_tallied :
    hasty.Loses (.node ⟨1⟩) archive ["marks", "old"] ∧
    redirected.Loses (.node ⟨1⟩) archive ["marks", "old"] ∧
    tallied.Loses (.node ⟨1⟩) archive ["marks", "old"] := by
  refine ⟨?_, ?_, ?_⟩
  · exact loses_of_parsed ⟨⟨1⟩, none⟩ [⟨[.key "marks", .key "old"], .mapDelete⟩]
      [⟨["marks", "old"], .mapDelete⟩] (by decide +kernel) (by decide) (by decide)
  · exact loses_of_parsed ⟨⟨1⟩, some ⟨2⟩⟩ [⟨[.key "marks", .whole], .mapDelete⟩]
      [⟨["marks", "old"], .mapDelete⟩] (by decide +kernel) (by decide) (by decide)
  · exact loses_of_parsed ⟨⟨1⟩, some ⟨2⟩⟩ [⟨[.key "marks", .named "size"], .mapDelete⟩]
      [⟨["marks", "old"], .mapDelete⟩] (by decide +kernel) (by decide) (by decide)

end Update

end PathCopy
