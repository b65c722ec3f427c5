import Mathlib.Data.Fintype.EquivFin
import Mathlib.Order.RelIso.Set
import PathCopy.Proofs.Growth
import PathCopy.Value.Arithmetic
import PathCopy.Value.Equality

/-!
Depth. A value is founded if no way down from it is longer than some bound; then the number of nodes
in the store is such a bound, since no way passes a node twice. Operations on a founded value that
walk it down to the size of the store see all of it. Where no reference dangles, what is founded is
what contains no node that lies inside itself.
-/

namespace PathCopy

namespace Store

/-- No way down from the value passes more than `n` nodes. -/
def Shallow (st : Store) : ℕ → Value → Prop
  | _, .scalar _ => True
  | 0, .node _ => False
  | n + 1, .node r => ∀ c ∈ st.children r, st.Shallow n c

/-- Some number bounds all ways down from the value. -/
def Founded (st : Store) (v : Value) : Prop := ∃ n, st.Shallow n v

variable {st st' : Store} {n m : ℕ} {u v w : Value} {r t : Ref} {body : Body}

theorem shallow_scalar (n : ℕ) (a : Scalar) : st.Shallow n (.scalar a) := by
  cases n <;> trivial

theorem Shallow.mono (h : st.Shallow n v) (hnm : n ≤ m) : st.Shallow m v := by
  induction n generalizing m v with
  | zero =>
      cases v with
      | scalar a => exact shallow_scalar m a
      | node r => exact h.elim
  | succ n ih =>
      cases v with
      | scalar a => exact shallow_scalar m a
      | node r =>
          obtain ⟨m, rfl⟩ := Nat.exists_eq_add_of_le' (Nat.le_of_add_left_le hnm)
          exact fun c hc => ih (h c hc) (Nat.le_of_succ_le_succ hnm)

theorem Shallow.child (h : st.Shallow n (.node r)) (hw : w ∈ st.children r) : st.Shallow n w := by
  cases n with
  | zero => exact h.elim
  | succ n => exact (h w hw).mono (Nat.le_succ n)

theorem Shallow.reaches (h : st.Shallow n v) (hw : st.Reaches v w) : st.Shallow n w :=
  hw.inherit (P := st.Shallow n) h fun _ hr _ hc => hr.child hc

theorem founded_scalar (a : Scalar) : st.Founded (.scalar a) := ⟨0, trivial⟩

theorem Founded.reaches (h : st.Founded v) (hw : st.Reaches v w) : st.Founded w :=
  h.imp fun _ hn => hn.reaches hw

theorem Within.founded {roots : List Value} (h : st.Within roots v)
    (hroots : ∀ u ∈ roots, st.Founded u) : st.Founded v := by
  rcases h with ⟨a, rfl⟩ | ⟨u, hu, huv⟩
  · exact founded_scalar a
  · exact (hroots u hu).reaches huv

theorem founded_node (h : ∀ c ∈ st.children r, st.Founded c) : st.Founded (.node r) := by
  have hall : ∀ cs : List Value, (∀ c ∈ cs, st.Founded c) → ∃ n, ∀ c ∈ cs, st.Shallow n c := by
    intro cs
    induction cs with
    | nil => exact fun _ => ⟨0, nofun⟩
    | cons c cs ih =>
        intro hcs
        obtain ⟨⟨n, hn⟩, hrest⟩ := List.forall_mem_cons.mp hcs
        obtain ⟨m, hm⟩ := ih hrest
        refine ⟨max n m, List.forall_mem_cons.mpr ⟨hn.mono (le_max_left n m), fun c hc => ?_⟩⟩
        exact (hm c hc).mono (le_max_right n m)
  obtain ⟨n, hn⟩ := hall _ h
  exact ⟨n + 1, hn⟩

/-- In a store in layers no value contains itself. -/
theorem Layered.founded (h : st.Layered) (v : Value) : st.Founded v := by
  have hnode : ∀ n (r : Ref), r.index = n → st.Founded (.node r) := by
    intro n
    induction n using Nat.strong_induction_on with
    | _ n ih =>
        intro r hr
        refine founded_node fun c hc => ?_
        have hbelow := h r.index (index_lt_of_mem_children hc) c hc
        cases c with
        | scalar a => exact founded_scalar a
        | node s => exact ih s.index (hr ▸ hbelow) s rfl
  cases v with
  | scalar a => exact founded_scalar a
  | node r => exact hnode r.index r rfl

theorem AgreeBelow.shallow (h : st.AgreeBelow st' v) (hv : st.Shallow n v) : st'.Shallow n v := by
  induction n generalizing v with
  | zero =>
      cases v with
      | scalar a => trivial
      | node r => exact hv.elim
  | succ n ih =>
      cases v with
      | scalar a => trivial
      | node r =>
          intro c hc
          rw [h.children_eq] at hc
          exact ih (h.child hc) (hv c hc)

theorem AgreeBelow.founded (h : st.AgreeBelow st' v) (hv : st.Founded v) : st'.Founded v :=
  hv.imp fun _ hn => h.shallow hn

theorem founded_alloc (hagree : ∀ c ∈ body.children, st.AgreeBelow (st.alloc body).2 c)
    (hbody : ∀ c ∈ body.children, st.Founded c) :
    (st.alloc body).2.Founded (st.alloc body).1 := by
  refine founded_node (r := ⟨st.size⟩) fun c hc => ?_
  rw [children_alloc_self] at hc
  exact (hagree c hc).founded (hbody c hc)

/-- A write of founded values that do not lead back to the node leaves all values founded. -/
theorem Founded.setBody (h : st.Founded v) (ht : t.index < st.size)
    (hbody : ∀ c ∈ body.children, st.Founded c ∧ ¬ st.Reaches c (.node t)) :
    (st.setBody t body).Founded v := by
  have htarget : (st.setBody t body).Founded (.node t) := by
    refine founded_node fun c hc => ?_
    rw [children_setBody_self ht] at hc
    exact (agreeBelow_setBody (hbody c hc).2).founded (hbody c hc).1
  obtain ⟨n, hn⟩ := h
  induction n generalizing v with
  | zero =>
      cases v with
      | scalar a => exact founded_scalar a
      | node r => exact hn.elim
  | succ n ih =>
      cases v with
      | scalar a => exact founded_scalar a
      | node r =>
          by_cases hrt : r = t
          · rw [hrt]
            exact htarget
          · refine founded_node fun c hc => ih (hn c ?_)
            rwa [children_setBody_of_ne hrt] at hc

/-! ### The size of the store as a bound -/

/-- A way down that is no longer than it has to be passes that many different nodes. -/
theorem exists_nodes (h : st.Shallow (n + 1) v) (hn : ¬ st.Shallow n v) :
    ∃ rs : List Ref, rs.length = n + 1 ∧ rs.Nodup ∧ ∀ r ∈ rs, st.Reaches v (.node r) := by
  induction n generalizing v with
  | zero =>
      cases v with
      | scalar a => exact absurd trivial hn
      | node r => exact ⟨[r], rfl, List.nodup_singleton r, by simp [reaches_refl]⟩
  | succ n ih =>
      cases v with
      | scalar a => exact absurd trivial hn
      | node r =>
          obtain ⟨c, hc, hcn⟩ : ∃ c ∈ st.children r, ¬ st.Shallow n c := by
            by_contra hall
            exact hn fun c hc => not_not.mp fun hcn => hall ⟨c, hc, hcn⟩
          obtain ⟨rs, hlength, hnodup, hreach⟩ := ih (h c hc) hcn
          refine ⟨r :: rs, by simp [hlength], List.nodup_cons.mpr ⟨fun hr => ?_, hnodup⟩, ?_⟩
          · -- The nodes below are all shallower than this one.
            exact hn ((h c hc).reaches (hreach r hr))
          · refine List.forall_mem_cons.mpr ⟨reaches_refl st _, fun s hs => ?_⟩
            exact (reaches_of_mem_children hc).trans (hreach s hs)

theorem Founded.shallow_size (h : st.Founded v)
    (hv : ∀ r, st.Reaches v (.node r) → r.index < st.size) : st.Shallow st.size v := by
  classical
  have hleast := Nat.find_spec h
  rcases Nat.lt_or_ge st.size (Nat.find h) with hlt | hge
  · obtain ⟨n, hn⟩ := Nat.exists_eq_add_of_lt hlt
    rw [hn] at hleast
    have hprev : ¬ st.Shallow (st.size + n) v :=
      Nat.find_min h (by rw [hn]; exact Nat.lt_succ_self _)
    obtain ⟨rs, hlength, hnodup, hreach⟩ := exists_nodes hleast hprev
    have hindices : (rs.map Ref.index).Nodup :=
      hnodup.map fun _ _ => Ref.eq_of_index_eq
    have hsub : rs.map Ref.index ⊆ List.range st.size := by
      intro i hi
      obtain ⟨r, hr, rfl⟩ := List.mem_map.mp hi
      exact List.mem_range.mpr (hv r (hreach r hr))
    have hle := (hindices.subperm hsub).length_le
    rw [List.length_map, hlength, List.length_range] at hle
    omega
  · exact hleast.mono hge

/-! ### Cycles -/

/-- The node `s` lies inside the node `r`, at least one level down. -/
def Inside (st : Store) (s r : Ref) : Prop := Relation.TransGen st.Child (.node r) (.node s)

/-- No node that the roots reach lies inside itself. -/
def Acyclic (st : Store) (roots : List Value) : Prop :=
  ∀ r, st.Reachable roots r → ¬ st.Inside r r

theorem Founded.not_inside (h : st.Founded (.node r)) : ¬ st.Inside r r := by
  obtain ⟨n, hn⟩ := h
  induction n with
  | zero => exact hn.elim
  | succ n ih =>
      intro hinside
      obtain ⟨c, hc, hback⟩ := Relation.TransGen.head'_iff.mp hinside
      have hn' : st.Shallow n (.node r) := (hn c (child_node.mp hc)).reaches hback
      exact ih hn' hinside

/-- A walk that goes from a founded value to its children, and on from them, comes to an end. -/
theorem Founded.acc (h : st.Founded v) : Acc (fun c u => st.Child u c) v := by
  obtain ⟨n, hn⟩ := h
  induction n generalizing v with
  | zero =>
      refine ⟨v, fun c hc => ?_⟩
      obtain ⟨r, rfl, -⟩ := hc
      exact hn.elim
  | succ n ih =>
      refine ⟨v, fun c hc => ?_⟩
      obtain ⟨r, rfl, hmem⟩ := hc
      exact ih (hn c hmem)

theorem acyclic_of_founded {roots : List Value} (h : ∀ v ∈ roots, st.Founded v) :
    st.Acyclic roots := by
  rintro r ⟨v, hv, hr⟩
  exact ((h v hv).reaches hr).not_inside

theorem Acyclic.founded {roots : List Value} (h : st.Acyclic roots) (hsound : st.Sound roots) :
    ∀ v ∈ roots, st.Founded v := by
  have : Finite {r // st.Reachable roots r} :=
    .of_injective (fun r => (⟨r.1.index, hsound r.1 r.2⟩ : Fin st.size)) fun r s hrs =>
      Subtype.ext (Ref.eq_of_index_eq (Fin.mk.inj hrs))
  have : IsTrans _ (Subrel st.Inside (st.Reachable roots)) := ⟨fun _ _ _ hrs hst => hst.trans hrs⟩
  have : Std.Irrefl (Subrel st.Inside (st.Reachable roots)) := ⟨fun r => h r.1 r.2⟩
  have hnode : ∀ r : {r // st.Reachable roots r}, st.Founded (.node r.1) := by
    intro r
    induction r using (Finite.wellFounded_of_trans_of_irrefl
      (Subrel st.Inside (st.Reachable roots))).induction with
    | _ r ih =>
        refine founded_node fun c hc => ?_
        cases c with
        | scalar a => exact founded_scalar a
        | node s => exact ih ⟨s, r.2.child hc⟩ (.single (child_node.mpr hc))
  intro v hv
  cases v with
  | scalar a => exact founded_scalar a
  | node r => exact hnode ⟨r, reachable_of_mem hv⟩

/-! ### Texts of values -/

theorem Shallow.joinedTo_eq (h : st.Shallow n v) (hm : n ≤ m) :
    st.joinedTo m v = st.joinedTo n v := by
  induction n generalizing m v with
  | zero =>
      cases v with
      | scalar a => rw [joinedTo, joinedTo]
      | node r => exact h.elim
  | succ n ih =>
      cases v with
      | scalar a => rw [joinedTo, joinedTo]
      | node r =>
          obtain ⟨m, rfl⟩ := Nat.exists_eq_add_of_le' (Nat.le_of_add_left_le hm)
          rw [joinedTo, joinedTo]
          cases hbody : st.body r with
          | date ms => rfl
          | map entries => rfl
          | record cls fields => rfl
          | list items =>
              rw [Body.joined, Body.joined]
              refine congrArg _ (List.map_congr_left fun c hc => ?_)
              have hshallow : st.Shallow n c := h c (by rwa [children, hbody])
              have heq := ih hshallow (Nat.le_of_succ_le_succ hm)
              split
              · rfl
              · rfl
              · exact heq

/-! ### Equality -/

/-- Deep enough a comparison looks at all of the value. -/
theorem Shallow.equalTo_eq (h : st.Shallow n v) (hm : n ≤ m) (w : Value) :
    st.equalTo m v w = st.equalTo n v w := by
  induction n generalizing m v w with
  | zero =>
      cases v with
      | scalar a => cases w <;> simp only [equalTo]
      | node r => exact h.elim
  | succ n ih =>
      obtain ⟨m, rfl⟩ := Nat.exists_eq_add_of_le' (Nat.le_of_add_left_le hm)
      cases v with
      | scalar a => cases w <;> simp only [equalTo]
      | node r =>
          cases w with
          | scalar b => simp only [equalTo]
          | node s =>
              rw [equalTo, equalTo, Body.agree_congr fun c hc d =>
                ih (h c hc) (Nat.le_of_succ_le_succ hm) d]

end Store

end PathCopy
