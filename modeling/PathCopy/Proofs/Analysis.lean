import PathCopy.Path.Extract
import PathCopy.Path.Resolve
import PathCopy.Proofs.Ownership
import PathCopy.Proofs.Pointwise
import PathCopy.Proofs.Rules

/-!
The analysis foresees the writes. A chain of accesses to the state is followed at run time along the
keys that its segments stand for: a fixed key is the same in every run, and a key that the argument
supplies is the same as long as the parameter of the argument has not been assigned.
-/

namespace PathCopy

open Store

theorem Value.key?_number_iff {x : Float} {k : String} :
    (Value.number x).key? = some k ↔ x.isFinite ∧ k = Number.keyText x := by
  rw [Value.key?]
  split
  · next hfinite => simp [hfinite, eq_comm]
  · next hfinite => simp [hfinite]

/-- What a segment of a write path gives as a key at some moment of a run. -/
def Segment.Reads (roles : Roles) (m : Machine) : Segment → String → Prop
  | .key text, k => k = text
  | .whole, k => ∃ name b, roles.args = some name ∧ m.scopes.find? name = some b ∧
      b.value.key? = some k
  | .named field, k => ∃ name b, roles.args = some name ∧ m.scopes.find? name = some b ∧
      (m.store.property b.value field).key? = some k

namespace Procedure

variable {p : Procedure} {roles : Roles} {m m' : Machine} {held : List Value} {e : Expr}
  {segments : List Segment}

def ofText (source : String) (h : (parse source).toOption.isSome) : Procedure :=
  (parse source).toOption.get h

theorem parse_ofText {source : String} (h : (parse source).toOption.isSome) :
    parse source = .ok (ofText source h) :=
  eq_ok_of_mem_toOption (Option.get_mem h)

/-! ### Keys -/

def evalKey (p : Procedure) (held : List Value) (e : Expr) : Run String := do
  let k ← Run.eval p.names held e
  Run.key k e.span

theorem eval_ident_ok {site : Site} {name : Name} {v : Value}
    (h : Run.eval p.names held (.ident site name) m = .ok v m') :
    m' = m ∧ ∃ b, m.scopes.find? name = some b ∧ b.value = v := by
  rw [Run.eval] at h
  exact ⟨(Run.still_lookup _ _ _).ok h, Run.lookup_ok h⟩

theorem eval_index_ok {site : Site} {base key : Expr} {a : Scalar} {w : Value}
    (h : Run.eval p.names held (.index site base key) m = .ok w m')
    (hliteral : key.literal? p.names = some a) :
    ∃ v m₁ k, Run.eval p.names held base m = .ok v m₁ ∧ (Value.scalar a).key? = some k ∧
      Run.property v k site.span m₁ = .ok w m' := by
  rw [Run.eval] at h
  obtain ⟨v, m₁, hv, h⟩ := Run.bind_ok h
  rw [Run.eval_literal hliteral, pure_bind] at h
  obtain ⟨k, m₂, hk, h⟩ := Run.bind_ok h
  cases (Run.still_key _ _).ok hk
  exact ⟨v, m₁, k, hv, Run.key_ok hk, h⟩

theorem reads_property {site : Site} {name : Name} {v w : Value} {field k : String} {span : Span}
    {m₁ : Machine} (hargs : roles.args = some name)
    (hv : Run.eval p.names held (.ident site name) m = .ok v m₁)
    (hw : Run.property v field span m₁ = .ok w m') (hk : w.key? = some k) :
    m' = m ∧ Segment.Reads roles m (.named field) k := by
  obtain ⟨rfl, b, hb, rfl⟩ := eval_ident_ok hv
  cases (Run.still_property _ _ _).ok hw
  rw [Run.property_ok hw] at hk
  exact ⟨rfl, name, b, hargs, hb, hk⟩

theorem Denotes.reads {s : Segment} {v : Value} {k : String} (h : p.Denotes roles e s)
    (hv : Run.eval p.names held e m = .ok v m') (hk : v.key? = some k) :
    m' = m ∧ Segment.Reads roles m s k := by
  cases h with
  | number site bits =>
      rw [Run.eval] at hv
      cases hv
      exact ⟨rfl, (Value.key?_number_iff.mp hk).2⟩
  | string site text =>
      rw [Run.eval] at hv
      cases hv
      exact ⟨rfl, (Option.some.inj hk).symm⟩
  | args site hargs =>
      obtain ⟨rfl, b, hb, rfl⟩ := eval_ident_ok hv
      exact ⟨rfl, _, b, hargs, hb, hk⟩
  | field site base property hargs =>
      rw [Run.eval] at hv
      obtain ⟨u, m₁, hu, hv⟩ := Run.bind_ok hv
      exact reads_property hargs hu hv hk
  | entry site base key text hargs =>
      obtain ⟨u, m₁, field, hu, hfield, hv⟩ := eval_index_ok hv rfl
      cases hfield
      exact reads_property hargs hu hv hk
  | item site base key bits hargs =>
      obtain ⟨u, m₁, field, hu, hfield, hv⟩ := eval_index_ok hv rfl
      cases (Value.key?_number_iff.mp hfield).2
      exact reads_property hargs hu hv hk

/-! ### Chains of accesses -/

theorem place_root {pl : Place} (h : Run.place p.names held e m = .ok pl m') :
    e.root? = some pl.root := by
  refine Run.place_induct (P := fun e pl _ => e.root? = some pl.root) ?root ?field ?item ?entry h
  case root => exact fun site name => rfl
  case field => exact fun _ _ _ _ _ _ ih => ih
  case item => exact fun _ _ _ _ _ _ _ _ _ _ _ ih => ih
  case entry => exact fun _ _ _ _ _ _ _ _ _ _ _ _ _ _ ih => ih

theorem keys_concat (pl : Place) (step : Step) :
    Place.keys { pl with steps := pl.steps ++ [step] } = pl.keys ++ [step.text] := by
  simp [Place.keys]

/-- A known key after a place whose keys are what its segments give. -/
theorem Denotes.reads_keyed {base key : Expr} {s : Segment} {a : Place × String}
    (h : p.Denotes roles key s)
    (hbase : ∀ pl m', Run.place p.names held base m = .ok pl m' →
      m' = m ∧ List.Forall₂ (Segment.Reads roles m) segments pl.keys)
    (hrun : Run.keyed p.names held base key m = .ok a m') :
    m' = m ∧ List.Forall₂ (Segment.Reads roles m) (segments ++ [s]) (a.1.keys ++ [a.2]) := by
  obtain ⟨m₁, v, hpl, hv, hk⟩ := Run.keyed_ok hrun
  obtain ⟨rfl, hreads⟩ := hbase _ _ hpl
  obtain ⟨rfl, hlast⟩ := h.reads hv hk
  exact ⟨rfl, List.rel_append hreads (.cons hlast .nil)⟩

theorem Leads.reads {pl : Place} (h : p.Leads roles e segments)
    (hrun : Run.place p.names held e m = .ok pl m') :
    m' = m ∧ List.Forall₂ (Segment.Reads roles m) segments pl.keys := by
  induction h using Leads.induct generalizing pl m' with
  | state site =>
      rw [Run.place] at hrun
      cases hrun
      exact ⟨rfl, .nil⟩
  | field site base property segments hbase h ih =>
      rw [Run.place] at hrun
      obtain ⟨pl, m₁, hpl, hrun⟩ := Run.bind_ok hrun
      cases hrun
      obtain ⟨rfl, hreads⟩ := ih hpl
      rw [keys_concat]
      exact ⟨rfl, List.rel_append hreads (.cons rfl .nil)⟩
  | key site base key segments s hbase h hs ih =>
      rw [Run.place_index] at hrun
      obtain ⟨a, m₁, hkeyed, hrun⟩ := Run.bind_ok hrun
      cases hrun
      rw [keys_concat]
      exact hs.reads_keyed (fun _ _ => ih) hkeyed
  | get site site' base property key segments s hbase h hget hs ih =>
      rw [Run.place_get hget] at hrun
      obtain ⟨a, m₁, hkeyed, hrun⟩ := Run.bind_ok hrun
      cases hrun
      rw [keys_concat]
      exact hs.reads_keyed (fun _ _ => ih) hkeyed

/-- The keys of a place that is reached through the state are what its segments give. -/
def Traces (roles : Roles) (m : Machine) (pl : Place) : Option (List Segment) → Machine → Prop
  | none, _ => pl.root ≠ roles.state
  | some segments, m' =>
    m' = m ∧ pl.root = roles.state ∧ List.Forall₂ (Segment.Reads roles m) segments pl.keys

theorem place_traces {chain : Option (List Segment)} {pl : Place}
    (h : p.stateChain roles e = .ok chain) (hrun : Run.place p.names held e m = .ok pl m') :
    Traces roles m pl chain m' := by
  have hroot := place_root hrun
  cases chain with
  | none => exact fun hstate => stateChain_none_iff.mp h (hstate ▸ hroot)
  | some segments =>
      have hleads := stateChain_some_iff.mp h
      obtain ⟨rfl, hreads⟩ := hleads.reads hrun
      exact ⟨rfl, Option.some.inj (hroot.symm.trans hleads.1), hreads⟩

end Procedure

/-! ### Covered expressions -/

def Covered (p : Procedure) (roles : Roles) (paths : List WritePath) (e : Expr) : Prop :=
  ∃ ws, p.exprWrites roles e = .ok ws ∧ ws ⊆ paths

section Covered

variable {p : Procedure} {roles : Roles} {paths : List WritePath}
variable {site site' : Site} {e target value : Expr} {args es : List Expr} {segments : List Segment}

theorem covered_list {ws : List WritePath} (h : p.listWrites roles es = .ok ws)
    (hsub : ws ⊆ paths) : ∀ e ∈ es, Covered p roles paths e := by
  induction es generalizing ws with
  | nil => exact nofun
  | cons e es ih =>
      rw [Procedure.listWrites] at h
      obtain ⟨us, hus, h⟩ := except_bind_ok h
      obtain ⟨vs, hvs, h⟩ := except_bind_ok h
      cases h
      obtain ⟨hleft, hright⟩ := List.append_subset.mp hsub
      exact List.forall_mem_cons.mpr ⟨⟨us, hus, hleft⟩, ih hvs hright⟩

theorem covered_entries {es : List Property} {ws : List WritePath}
    (h : p.entriesWrites roles es = .ok ws) (hsub : ws ⊆ paths) :
    ∀ e ∈ es.map Property.value, Covered p roles paths e := by
  induction es generalizing ws with
  | nil => exact nofun
  | cons e es ih =>
      cases e with
      | entry name span value =>
          rw [Procedure.entriesWrites] at h
          obtain ⟨us, hus, h⟩ := except_bind_ok h
          obtain ⟨vs, hvs, h⟩ := except_bind_ok h
          cases h
          obtain ⟨hleft, hright⟩ := List.append_subset.mp hsub
          exact List.forall_mem_cons.mpr ⟨⟨us, hus, hleft⟩, ih hvs hright⟩

theorem Covered.member {prop : Name} (h : Covered p roles paths (.member site e prop)) :
    Covered p roles paths e := by
  obtain ⟨ws, hws, hsub⟩ := h
  rw [Procedure.exprWrites] at hws
  exact ⟨ws, hws, hsub⟩

theorem Covered.index {key : Expr} (h : Covered p roles paths (.index site e key)) :
    Covered p roles paths e ∧ Covered p roles paths key := by
  obtain ⟨ws, hws, hsub⟩ := h
  rw [Procedure.exprWrites] at hws
  obtain ⟨us, hus, hws⟩ := except_bind_ok hws
  obtain ⟨vs, hvs, hws⟩ := except_bind_ok hws
  cases hws
  obtain ⟨hleft, hright⟩ := List.append_subset.mp hsub
  exact ⟨⟨us, hus, hleft⟩, ⟨vs, hvs, hright⟩⟩

theorem Covered.call (h : Covered p roles paths (.call site e args)) :
    (∃ own, p.callWrites roles site e args = .ok own ∧ own ⊆ paths) ∧ Covered p roles paths e ∧
      ∀ a ∈ args, Covered p roles paths a := by
  obtain ⟨ws, hws, hsub⟩ := h
  rw [Procedure.exprWrites] at hws
  obtain ⟨own, hown, hws⟩ := except_bind_ok hws
  obtain ⟨us, hus, hws⟩ := except_bind_ok hws
  obtain ⟨vs, hvs, hws⟩ := except_bind_ok hws
  cases hws
  obtain ⟨hleft, hright⟩ := List.append_subset.mp hsub
  obtain ⟨hcall, hcallee⟩ := List.append_subset.mp hleft
  exact ⟨⟨own, hown, hcall⟩, ⟨us, hus, hcallee⟩, covered_list hvs hright⟩

theorem Covered.keys (h : Covered p roles paths e) : ∀ k ∈ e.keys, Covered p roles paths k := by
  induction e using Expr.keys.induct with
  | case1 site base prop ih => exact ih h.member
  | case2 site base key ih =>
      intro k hk
      rcases List.mem_append.mp hk with hk | hk
      · exact ih h.index.1 k hk
      · rw [List.mem_singleton.mp hk]
        exact h.index.2
  | case3 site site' base prop key ih =>
      intro k hk
      rcases List.mem_append.mp hk with hk | hk
      · exact ih h.call.2.1.member k hk
      · rw [List.mem_singleton.mp hk]
        exact h.call.2.2 key List.mem_cons_self
  | case4 e hmember hindex hcall =>
      intro k hk
      rw [Expr.keys] at hk
      · simp at hk
      all_goals assumption

theorem Procedure.Leads.covered_keys (h : p.Leads roles e segments) :
    ∀ k ∈ e.keys, Covered p roles paths k :=
  Covered.keys ⟨[], h.exprWrites, List.nil_subset paths⟩

/-- The target of an assignment is a chain from the state, which has a path, or starts elsewhere. -/
theorem Covered.assign {op : AssignOp} (h : Covered p roles paths (.assign site op target value)) :
    (∃ chain, p.stateChain roles target = .ok chain ∧
      ∀ segments, chain = some segments → segments ≠ [] ∧ ⟨segments, .assign⟩ ∈ paths) ∧
    (∀ k ∈ target.keys, Covered p roles paths k) ∧ Covered p roles paths value := by
  obtain ⟨ws, hws, hsub⟩ := h
  rw [Procedure.exprWrites] at hws
  obtain ⟨chain, hchain, hws⟩ := except_bind_ok hws
  cases chain with
  | none =>
      obtain ⟨us, hus, hws⟩ := except_bind_ok hws
      obtain ⟨vs, hvs, hws⟩ := except_bind_ok hws
      cases hws
      obtain ⟨hleft, hright⟩ := List.append_subset.mp hsub
      exact ⟨⟨none, hchain, by simp⟩, Covered.keys ⟨us, hus, hleft⟩, ⟨vs, hvs, hright⟩⟩
  | some segments =>
      dsimp only at hws
      split at hws
      · simp at hws
      · split at hws
        · simp at hws
        · next hne =>
          obtain ⟨vs, hvs, hws⟩ := except_bind_ok hws
          cases hws
          obtain ⟨hpath, hright⟩ := List.cons_subset.mp hsub
          refine ⟨⟨some segments, hchain, ?_⟩,
            (Procedure.stateChain_some_iff.mp hchain).covered_keys, ⟨vs, hvs, hright⟩⟩
          intro _ hsome
          cases hsome
          exact ⟨hne, hpath⟩

theorem Covered.step {op : StepOp} {fixity : Fixity}
    (h : Covered p roles paths (.step site op fixity target)) :
    p.stateChain roles target = .ok none ∧ Covered p roles paths target := by
  obtain ⟨ws, hws, hsub⟩ := h
  rw [Procedure.exprWrites] at hws
  obtain ⟨chain, hchain, hws⟩ := except_bind_ok hws
  cases chain with
  | none => exact ⟨hchain, ws, hws, hsub⟩
  | some segments => simp at hws

end Covered

end PathCopy
