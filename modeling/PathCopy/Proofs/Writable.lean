import PathCopy.Proofs.Contents
import PathCopy.Proofs.Singles

/-!
Writable copies. Every node that copying makes is unfrozen and has one handle: its place in the copy
of the parent, or the copy itself. Only a node that a constructor made for a field may have none,
when the record has a value of its own there. So a write from the copy along a path is never refused
because a node on its way is frozen or shared.
-/

namespace PathCopy

open Store

/-! ### Nodes within the copy -/

namespace Store

/-- The node was made for the fields that a constructor gives to the copy of an instance within the
roots. -/
def BuiltByClass (st : Store) (roots : List Value) (keepClass : Bool) (st' : Store) (r : Ref) :
    Prop :=
  ∃ s cls fields es st₁, st.Reachable roots s ∧ st.body s = .record cls fields ∧
    keptDefaults keepClass cls = some es ∧ st₁.size ≤ r.index ∧
    r.index < (Template.buildEntries es st₁).2.size ∧ (Template.buildEntries es st₁).2.Extends st'

/-- Every node that has been made is reached from what was built, or was made for a constructor. -/
def Accounts (st : Store) (roots : List Value) (keepClass : Bool) (st₁ st₂ : Store)
    (vs : List Value) : Prop :=
  ∀ r : Ref, st₁.size ≤ r.index → r.index < st₂.size →
    st₂.Reachable vs r ∨ st.BuiltByClass roots keepClass st₂ r

variable {st st₁ st₂ st₃ : Store} {roots vs ws : List Value} {keepClass : Bool} {r : Ref}
  {v : Value} {body : Body}

theorem BuiltByClass.mono (h : st.BuiltByClass roots keepClass st₁ r) (hext : st₁.Extends st₂) :
    st.BuiltByClass roots keepClass st₂ r := by
  obtain ⟨s, cls, fields, es, st₀, hs, hbody, hes, hlow, hhigh, hbuilt⟩ := h
  exact ⟨s, cls, fields, es, st₀, hs, hbody, hes, hlow, hhigh, hbuilt.trans hext⟩

/-- What available values reach they still reach after further growth. -/
theorem Adds.reachable (hsound : st.Sound roots) (h : st.Adds roots st₁ st₂ vs)
    (hext : st₂.Extends st₃) (hr : st₂.Reachable vs r) : st₃.Reachable vs r := by
  obtain ⟨v, hv, hreach⟩ := hr
  exact ⟨v, hv, (h.grown.agreeBelow hsound (h.available v hv) hext).reaches_iff.mpr hreach⟩

namespace Accounts

theorem none (vs : List Value) : st.Accounts roots keepClass st₁ st₁ vs :=
  fun _ hr hlt => absurd hlt (Nat.not_lt_of_le hr)

theorem append (hsound : st.Sound roots) (hadds : st.Adds roots st₁ st₂ vs)
    (h : st.Accounts roots keepClass st₁ st₂ vs) (hext : st₂.Extends st₃)
    (h' : st.Accounts roots keepClass st₂ st₃ ws) :
    st.Accounts roots keepClass st₁ st₃ (vs ++ ws) := by
  intro r hr hlt
  rcases Nat.lt_or_ge r.index st₂.size with hold | hnew
  · rcases h r hr hold with hreach | hbuilt
    · exact .inl ((hadds.reachable hsound hext hreach).mono (List.subset_append_left _ _))
    · exact .inr (hbuilt.mono hext)
  · exact (h' r hnew hlt).imp_left fun hreach => hreach.mono (List.subset_append_right _ _)

theorem alloc (hsound : st.Sound roots) (hadds : st.Adds roots st₁ st₂ vs)
    (h : st.Accounts roots keepClass st₁ st₂ vs) (hbody : vs ⊆ body.children) :
    st.Accounts roots keepClass st₁ (st₂.alloc body).2 [(st₂.alloc body).1] := by
  intro r hr hlt
  have hext := extends_alloc st₂ body
  rw [fst_alloc]
  rcases Nat.lt_or_ge r.index st₂.size with hold | hnew
  · rcases h r hr hold with hreach | hbuilt
    · obtain ⟨v, hv, hreach⟩ := hadds.reachable hsound hext hreach
      have hchild : v ∈ (st₂.alloc body).2.children ⟨st₂.size⟩ := by
        rw [children_alloc_self]
        exact hbody hv
      exact .inl ⟨_, List.mem_cons_self, (reaches_of_mem_children hchild).trans hreach⟩
    · exact .inr (hbuilt.mono hext)
  · rw [size_alloc] at hlt
    obtain rfl : r = ⟨st₂.size⟩ :=
      Ref.eq_of_index_eq (Nat.le_antisymm (Nat.le_of_lt_succ hlt) hnew)
    exact .inl (reachable_of_mem List.mem_cons_self)

end Accounts

end Store

section Copy

variable {st : Store} {roots : List Value}

/-- Only the first fields of a record's copy need nodes, and these are made for its constructor. -/
theorem Store.CopiesNode.begins_accounts {keepClass : Bool} {trail : List String} {r : Ref}
    {branches : KeyBranches} {first : Body} {c c₁ c₂ : Copying} {new : List (String × Value)}
    (h : st.CopiesNode roots keepClass trail r branches c first c₁ new c₂) :
    st.Accounts roots keepClass c.store c₁.store [] := by
  have hfirst := h.base
  cases hbody : st.body r with
  | date ms => exact absurd (congrArg Body.kind hbody) h.kind
  | list items =>
      rw [hbody] at hfirst
      cases hfirst
      exact .none []
  | map entries =>
      rw [hbody] at hfirst
      cases hfirst
      exact .none []
  | record cls fields =>
      rw [hbody, Copying.base, Copying.recordBase_eq] at hfirst
      split at hfirst
      · next es hes =>
        cases hfirst
        exact fun s hs hlt => .inr ⟨r, cls, fields, es, c.store, within_node_iff.mp h.within, hbody,
          hes, hs, hlt, extends_refl _⟩
      · cases hfirst
        exact .none []

theorem KeyTree.copy_accounts (hsound : st.Sound roots) (keepClass : Bool) :
    (∀ (trail : List String) (v : Value) (tree : KeyTree) (c : Copying),
      st.Within roots v → st.Grown roots c.store → tree.Regular →
      st.Accounts roots keepClass c.store (tree.copy keepClass trail v c).2.store
        [(tree.copy keepClass trail v c).1]) ∧
    ∀ (trail : List String) (body : Body) (branches : KeyBranches) (c : Copying),
      (∀ v ∈ body.children, st.Within roots v) → st.Grown roots c.store → branches.Regular →
      st.Accounts roots keepClass c.store (branches.copyChildren keepClass trail body c).2.store
        ((branches.copyChildren keepClass trail body c).1.map Prod.snd) := by
  have hlays := (KeyTree.copy_lays hsound keepClass).2
  refine KeyTree.copy_induct hsound keepClass
    (P := fun _ _ tree c x => tree.Regular →
      st.Accounts roots keepClass c.store x.2.store [x.1])
    (Q := fun _ _ branches c x => branches.Regular →
      st.Accounts roots keepClass c.store x.2.store (x.1.map Prod.snd))
    ?shared ?scalar ?date ?container ?none ?leaf ?absent ?child
  case shared => exact fun _ _ _ _ _ _ _ _ => .none _
  case scalar => exact fun _ _ _ _ _ _ _ => .none _
  case date =>
    exact fun _ _ _ _ _ _ _ _ hc _ =>
      (Accounts.none []).alloc hsound (Adds.none hc) (List.nil_subset _)
  case container =>
    intro trail r ends branches c first c₁ new c₂ hcopy ih hregular
    have hchildren := (hcopy.grown.children_within hsound hcopy.within).2
    have hlaid := hlays trail (st.body r) branches c₁ hchildren hcopy.begins.grown hregular
    rw [hcopy.children] at hlaid
    have hnothing := hcopy.begins.subset (List.nil_subset _)
    exact (hcopy.begins_accounts.append hsound hnothing hcopy.adds.ext (ih hregular)).alloc hsound
      (hnothing.append hsound hcopy.adds) (hlaid.subset_children hcopy.refills)
  case none => exact fun _ _ _ _ => .none _
  case leaf => exact fun _ _ _ _ _ _ _ _ ih hregular => ih hregular.2.2.2
  case absent =>
    rintro trail body key tree rest c _ _ _ rfl _ _ ih hregular
    exact ih hregular.2.2.2
  case child =>
    intro trail body key tree rest c w w' c₁ new c₂ hcopy ih ihrest hregular
    exact (ih hregular.2.2.1).append hsound hcopy.begins hcopy.adds.ext (ihrest hregular.2.2.2)

/-- The new nodes of a copy are unfrozen. Those within the copy have one handle; the others have
none, and were made for a constructor. -/
theorem Store.copy_handles {v : Value} {others : List Value} (hsound : st.Sound (v :: others))
    (keepClass : Bool) (paths : List KeyPath) {r : Ref} (hr : st.size ≤ r.index)
    (hlt : r.index < (st.copy keepClass v paths).2.store.size) :
    ((st.copy keepClass v paths).2.store.node r).frozen = false ∧
      ((st.copy keepClass v paths).2.store.Reaches (st.copy keepClass v paths).1 (.node r) ∧
          (st.copy keepClass v paths).2.store.handleCount
            ((st.copy keepClass v paths).1 :: others) r = 1 ∨
        st.BuiltByClass [v] keepClass (st.copy keepClass v paths).2.store r ∧
          (st.copy keepClass v paths).2.store.handleCount
            ((st.copy keepClass v paths).1 :: others) r = 0) := by
  have hv : st.Within (v :: others) v := within_of_mem List.mem_cons_self
  have hsingle : st.Sound [v] := hsound.mono (List.forall_mem_singleton.mpr hv)
  have hadds := st.copy_adds hsound keepClass hv paths
  obtain ⟨hsingly, hunfrozen⟩ := copy_singly hsound keepClass hv paths
  refine ⟨hunfrozen r hr hlt, ?_⟩
  rw [handleCount]
  -- The other values reach old nodes only.
  have hiff : (st.copy keepClass v paths).2.store.Reachable
      ((st.copy keepClass v paths).1 :: others) r ↔
        (st.copy keepClass v paths).2.store.Reaches (st.copy keepClass v paths).1 (.node r) := by
    constructor
    · rintro ⟨w, hw, hreach⟩
      rcases List.mem_cons.mp hw with rfl | hw
      · exact hreach
      · have hwithin : st.Within (v :: others) w := within_of_mem (List.mem_cons_of_mem _ hw)
        rw [(hsound.agreeBelow hadds.ext hwithin).reaches_iff] at hreach
        exact absurd (hsound r ⟨w, List.mem_cons_of_mem _ hw, hreach⟩) (Nat.not_lt_of_le hr)
    · exact fun hreach => ⟨_, List.mem_cons_self, hreach⟩
  by_cases hreach : (st.copy keepClass v paths).2.store.Reaches
      (st.copy keepClass v paths).1 (.node r)
  · have hle := hsingly.places_le_one hsound hadds.grown (hadds.available _ List.mem_cons_self)
      (fun u hu => within_of_mem (List.mem_cons_of_mem _ hu)) hr
    have hpos := (handles_ne_zero_iff hlt).mpr (hiff.mpr hreach)
    rw [handles_eq_places hlt] at hpos ⊢
    exact .inl ⟨hreach, Nat.le_antisymm hle (Nat.one_le_iff_ne_zero.mpr hpos)⟩
  · have hmade := (KeyTree.copy_accounts hsingle keepClass).1 [] v (.ofPaths paths) ⟨st, []⟩
      (within_of_mem List.mem_cons_self) (grown_refl st [v]) (KeyTree.regular_ofPaths paths) r hr hlt
    refine .inr ⟨hmade.resolve_left ?_,
      not_not.mp fun hpos => hreach (hiff.mp ((handles_ne_zero_iff hlt).mp hpos))⟩
    rintro ⟨w, hw, hown⟩
    rw [List.mem_singleton.mp hw] at hown
    exact hreach hown

end Copy

/-! ### Positions that a path passes -/

section Passed

variable {st st' : Store} {keepClass : Bool} {paths : List KeyPath} {p q : List String}
  {u v w : Value} {r s : Ref} {t : Template} {k : String} {body body' : Body}

theorem Passed.of_append (h : Passed paths (q ++ p)) : Passed paths q := by
  obtain ⟨path, hpath, hpre, hne⟩ := h
  refine ⟨path, hpath, (List.prefix_append q p).trans hpre, ?_⟩
  rintro rfl
  exact hne (hpre.eq_of_length_le (by simp))

theorem Store.Built.index_le (h : st.Built st' t w) (hr : st'.Reaches w (.node r)) :
    st.size ≤ r.index := by
  obtain ⟨st₁, hsize, rfl, hagree⟩ := h
  have hsound := sound_nil st₁
  have hadds := t.build_adds hsound st₁ (grown_refl st₁ [])
  rw [hagree.reaches_iff] at hr
  have havailable := hadds.grown.available_of_reaches hsound
    (hadds.available _ List.mem_cons_self) hr
  rcases havailable with (⟨a, ha⟩ | ⟨u, hu, -⟩) | ⟨s, hs, hlow, -⟩
  · cases ha
  · simp at hu
  · cases hs
    exact hsize.trans hlow

/-- A child that the copy has and the copied container lacks is a field of a constructor. -/
theorem Body.record_of_copyShape (hshape : body'.shape = body.copyShape keepClass paths q)
    (hw : body'.child? k = some w) (hnone : body.child? k = none) :
    ∃ cls fields, body = .record cls fields := by
  cases body with
  | date ms => cases body' <;> simp_all [shape, copyShape, child?]
  | list items =>
      cases body' with
      | list items' =>
          have hlength : items'.length = items.length := Shape.list.inj hshape
          obtain ⟨i, hi, hw⟩ := Option.bind_eq_some_iff.mp hw
          obtain ⟨hlt, -⟩ := List.getElem?_eq_some_iff.mp hw
          rw [child?, hi, Option.bind_some, List.getElem?_eq_none_iff] at hnone
          omega
      | date ms => simp [child?] at hw
      | map entries => simp [shape, copyShape] at hshape
      | record cls fields => simp [shape, copyShape] at hshape
  | map entries =>
      cases body' with
      | map entries' =>
          have hkeys := Shape.map.inj hshape
          have hmem : k ∈ entries'.keys := isSome_findEntry_iff.mp (Option.isSome_of_eq_some hw)
          rw [hkeys] at hmem
          have hsome := isSome_findEntry_iff.mpr (List.mem_filter.mp hmem).1
          exact absurd hsome (by rw [show findEntry k entries.entries = none from hnone]; simp)
      | date ms => simp [child?] at hw
      | list items => simp [shape, copyShape] at hshape
      | record cls fields => simp [shape, copyShape] at hshape
  | record cls fields => exact ⟨cls, fields, rfl⟩

/-- Every node that a copy holds at a position that a path passes is new. -/
theorem Store.CopyOf.index_le (h : st.CopyOf st' keepClass paths q v w)
    (hr : st'.at? w p = some (.node r)) (hpassed : Passed paths (q ++ p)) : st.size ≤ r.index := by
  induction h generalizing p with
  | @shared q v h =>
      cases p with
      | nil =>
          cases hr
          exact absurd hpassed.of_append (h rfl)
      | cons k p =>
          obtain ⟨s, c, rfl, -⟩ := at?_cons.mp hr
          exact absurd hpassed.of_append (h rfl)
  | @copied q t s passed fresh shape _ unnamed defaults ih =>
      cases p with
      | nil =>
          cases hr
          obtain ⟨s', hs', hlow, -⟩ := fresh
          cases hs'
          exact hlow
      | cons k p =>
          obtain ⟨s', c, hs', hc, hr⟩ := at?_cons.mp hr
          cases hs'
          cases hv : (st.body t).child? k with
          | some c' =>
              rw [← List.singleton_append, ← List.append_assoc] at hpassed
              exact ih hv hc hr hpassed
          | none =>
              obtain ⟨cls, fields, hbody⟩ := Body.record_of_copyShape shape hc hv
              rw [hbody] at hv
              obtain ⟨es, t, -, -, hbuilt⟩ := defaults hbody hv hc
              exact hbuilt.index_le (reaches_of_at? hr)

end Passed

/-! ### Writes -/

/-- A write fails because a node is frozen or has more than one handle. -/
def Refused {α : Type} (x : Except WriteError α) : Prop := x = .error .frozen ∨ x = .error .shared

section Writes

variable {α β : Type} {st : Store} {counts : Array ℕ} {v new : Value} {key : String} {step : Step}
  {steps : List Step}

theorem not_refused_ok (a : α) : ¬ Refused (.ok a : Except WriteError α) := by simp [Refused]

theorem not_refused_error {e : WriteError} (hfrozen : e ≠ .frozen) (hshared : e ≠ .shared) :
    ¬ Refused (.error e : Except WriteError α) := by simp [Refused, hfrozen, hshared]

theorem not_refused_bind {x : Except WriteError α} {f : α → Except WriteError β}
    (hx : ¬ Refused x) (hf : ∀ a, x = .ok a → ¬ Refused (f a)) : ¬ Refused (x >>= f) := by
  cases x with
  | error e => simpa [Refused, bind, Except.bind] using hx
  | ok a => exact hf a rfl

namespace Store

theorem not_refused_claim {r : Ref} (h : st.Claimed counts r) : ¬ Refused (st.claim counts r) := by
  rw [claim_of_claimed h]
  exact not_refused_ok ()

theorem not_refused_indexOf (key : String) : ¬ Refused (indexOf key) := by
  unfold indexOf
  split <;> simp [Refused]

variable (h : ∀ r, v = .node r → st.Claimed counts r)
include h

/-- Where a node can be written, a step through it may fail, but not because it is frozen or
shared; and no more does a write. -/
theorem not_refused_child (step : Step) : ¬ Refused (st.child counts v step) := by
  cases v with
  | scalar a => exact not_refused_error (by simp) (by simp)
  | node r =>
      have hclaim := not_refused_claim (h r rfl)
      cases step with
      | key k =>
          cases hbody : st.body r with
          | date ms => simp [child, hbody, Refused]
          | map entries => simp [child, hbody, Refused]
          | record cls fields =>
              simp only [child, hbody]
              refine not_refused_bind hclaim fun _ _ => ?_
              split <;> simp [Refused]
          | list items =>
              simp only [child, hbody]
              refine not_refused_bind (not_refused_indexOf k) fun i _ => ?_
              refine not_refused_bind hclaim fun _ _ => ?_
              split <;> simp [Refused]
      | entry k =>
          cases hbody : st.body r with
          | date ms => simp [child, hbody, Refused]
          | list items => simp [child, hbody, Refused]
          | record cls fields => simp [child, hbody, Refused]
          | map entries =>
              simp only [child, hbody]
              refine not_refused_bind hclaim fun _ _ => ?_
              split <;> simp [Refused]

theorem not_refused_setKey (key : String) (new : Value) :
    ¬ Refused (st.setKey counts v key new) := by
  cases v with
  | scalar a => exact not_refused_error (by simp) (by simp)
  | node r =>
      have hclaim := not_refused_claim (h r rfl)
      cases hbody : st.body r with
      | date ms => simp [setKey, hbody, Refused]
      | map entries => simp [setKey, hbody, Refused]
      | record cls fields =>
          simp only [setKey, hbody]
          exact not_refused_bind hclaim fun _ _ => not_refused_ok _
      | list items =>
          simp only [setKey, hbody]
          refine not_refused_bind (not_refused_indexOf key) fun i _ => ?_
          refine not_refused_bind hclaim fun _ _ => ?_
          split_ifs <;> simp [Refused]

theorem not_refused_mapSet (key : String) (new : Value) :
    ¬ Refused (st.mapSet counts v key new) := by
  cases v with
  | scalar a => exact not_refused_error (by simp) (by simp)
  | node r =>
      cases hbody : st.body r with
      | map entries =>
          simp only [mapSet, hbody]
          exact not_refused_bind (not_refused_claim (h r rfl)) fun _ _ => not_refused_ok _
      | _ => simp [mapSet, hbody, Refused]

theorem not_refused_mapDelete (key : String) : ¬ Refused (st.mapDelete counts v key) := by
  cases v with
  | scalar a => exact not_refused_error (by simp) (by simp)
  | node r =>
      cases hbody : st.body r with
      | map entries =>
          simp only [mapDelete, hbody]
          exact not_refused_bind (not_refused_claim (h r rfl)) fun _ _ => not_refused_ok _
      | _ => simp [mapDelete, hbody, Refused]

theorem not_refused_replaceChild (step : Step) (new : Value) :
    ¬ Refused (st.replaceChild counts v step new) := by
  refine not_refused_bind (not_refused_child h step) fun _ _ => ?_
  cases v <;> exact not_refused_ok _

omit h

theorem not_refused_follow (h : ∀ p k rest r, steps.map Step.text = p ++ k :: rest →
      st.at? v p = some (.node r) → st.Claimed counts r) :
    ¬ Refused (st.follow counts v steps) := by
  induction steps generalizing v with
  | nil => exact not_refused_ok v
  | cons step steps ih =>
      refine not_refused_bind (not_refused_child (fun r hr => ?_) step) fun u hu => ih ?_
      · subst hr
        exact h [] step.text (steps.map Step.text) r rfl rfl
      · intro p k rest r hsteps hr
        obtain ⟨s, rfl, -, hchild⟩ := child_ok hu
        refine h (step.text :: p) k rest r ?_ ?_
        · rw [List.map_cons, hsteps, List.cons_append]
        · rw [at?, hchild, Option.bind_some, hr]

/-- In the copy every step along a path, and every write where the steps lead, may fail for what it
finds there, but is not refused. -/
theorem copy_not_refused {others : List Value} (hsound : st.Sound (v :: others))
    (keepClass : Bool) (paths : List KeyPath) {c : Copying} {u : Value}
    (hcopy : st.copy keepClass v paths = (u, c)) (hpassed : Passed paths (steps.map Step.text)) :
    ¬ Refused (c.store.follow (c.store.handles (u :: others)) u steps) ∧
      ∀ w, c.store.follow (c.store.handles (u :: others)) u steps = .ok w →
        ∀ r, w = .node r → c.store.Claimed (c.store.handles (u :: others)) r := by
  have hv : st.Within (v :: others) v := within_of_mem List.mem_cons_self
  have hsingle : st.Sound [v] := hsound.mono (List.forall_mem_singleton.mpr hv)
  have hadds := st.copy_adds hsound keepClass hv paths
  have hcontents := (copy_contents hsingle keepClass paths).2
  have hhandles := fun r => Store.copy_handles (r := r) hsound keepClass paths
  rw [hcopy] at hadds hcontents hhandles
  have hclaimed : ∀ p r, Passed paths p → c.store.at? u p = some (.node r) →
      c.store.Claimed (c.store.handles (u :: others)) r := by
    intro p r hp hr
    have hlt := hadds.grown.index_lt hsound (hadds.grown.available_of_reaches hsound
      (hadds.available u List.mem_cons_self) (reaches_of_at? hr))
    obtain ⟨hunfrozen, hcount⟩ := hhandles r (hcontents.index_le hr hp) hlt
    refine ⟨hunfrozen, ?_⟩
    rcases hcount with ⟨-, hone⟩ | ⟨-, hzero⟩
    · exact hone.le
    · exact hzero.le.trans (Nat.zero_le 1)
  refine ⟨not_refused_follow fun p k rest r hsteps hr => hclaimed p r ?_ hr, fun w hw r hr => ?_⟩
  · rw [hsteps] at hpassed
    exact hpassed.of_append
  · exact hclaimed _ r hpassed ((chain_of_follow hw).at?_eq.trans (congrArg some hr))

/-- The new nodes of a copy are unfrozen. Each has one handle, which is a place of the copy, or it
was made for a constructor and is not part of the copy. So no step along a path is refused, and
neither is a write where the steps lead. -/
theorem copy_writable {others : List Value} (hsound : st.Sound (v :: others)) {keepClass : Bool}
    {paths : List KeyPath} {c : Copying} {u : Value}
    (hcopy : st.copy keepClass v paths = (u, c)) :
    (∀ r : Ref, st.size ≤ r.index → r.index < c.store.size →
      (c.store.node r).frozen = false ∧
        (c.store.Reaches u (.node r) ∧ c.store.handleCount (u :: others) r = 1 ∨
          st.BuiltByClass [v] keepClass c.store r ∧ c.store.handleCount (u :: others) r = 0)) ∧
    ∀ steps, Passed paths (steps.map Step.text) →
      ¬ Refused (c.store.follow (c.store.handles (u :: others)) u steps) ∧
      ∀ w, c.store.follow (c.store.handles (u :: others)) u steps = .ok w → ∀ key step new,
        ¬ Refused (c.store.setKey (c.store.handles (u :: others)) w key new) ∧
        ¬ Refused (c.store.mapSet (c.store.handles (u :: others)) w key new) ∧
        ¬ Refused (c.store.mapDelete (c.store.handles (u :: others)) w key) ∧
        ¬ Refused (c.store.replaceChild (c.store.handles (u :: others)) w step new) := by
  constructor
  · intro r hr hlt
    have hhandles := copy_handles (r := r) hsound keepClass paths hr
    rw [hcopy] at hhandles
    exact hhandles hlt
  · intro steps hpassed
    obtain ⟨hfollow, hend⟩ := copy_not_refused hsound keepClass paths hcopy hpassed
    refine ⟨hfollow, fun w hw key step new => ?_⟩
    have hclaimed := hend w hw
    exact ⟨not_refused_setKey hclaimed key new, not_refused_mapSet hclaimed key new,
      not_refused_mapDelete hclaimed key, not_refused_replaceChild hclaimed step new⟩

/-- The map of the depot, which is frozen and has a second handle, is copied with the instance that
holds it: the copy of the map can be written. -/
theorem copy_writable_depot :
    ((depot.copy true (.node ⟨1⟩) depotPaths).2.store.node ⟨3⟩).frozen = false ∧
      ¬ Refused ((depot.copy true (.node ⟨1⟩) depotPaths).2.store.follow
        ((depot.copy true (.node ⟨1⟩) depotPaths).2.store.handles
          [.node ⟨4⟩, .node ⟨1⟩, .node ⟨0⟩]) (.node ⟨4⟩) [.key "stock"]) := by
  have hsound : depot.Sound [.node ⟨1⟩, .node ⟨1⟩, .node ⟨0⟩] :=
    Store.Layered.sound (by decide) (by decide)
  have hcopy : depot.copy true (.node ⟨1⟩) depotPaths =
      (.node ⟨4⟩, (depot.copy true (.node ⟨1⟩) depotPaths).2) := rfl
  obtain ⟨hnodes, hsteps⟩ := copy_writable hsound hcopy
  exact ⟨(hnodes ⟨3⟩ (by decide) (by decide)).1, (hsteps [.key "stock"] (by decide)).1⟩

end Store

end Writes

end PathCopy
