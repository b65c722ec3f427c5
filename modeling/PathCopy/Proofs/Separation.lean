import PathCopy.Proofs.Trees

/-!
Separation. Building a template numbers its nodes depth first: each part takes an interval of
numbers, and different parts take different ones. So a deep copy is a tree in the store as well: no
node of it stands at two places.
-/

namespace PathCopy

namespace Store

/-- The nodes below the values are numbered from `lo` to before `hi`, value by value; each comes
after those of its children. -/
inductive Spread (st : Store) : ℕ → List Value → ℕ → Prop
  | nil (lo : ℕ) : Spread st lo [] lo
  | scalar {lo hi : ℕ} {vs : List Value} (a : Scalar) (rest : Spread st lo vs hi) :
      Spread st lo (.scalar a :: vs) hi
  | node {lo hi : ℕ} {r : Ref} {vs : List Value} (children : Spread st lo (st.children r) r.index)
      (rest : Spread st (r.index + 1) vs hi) : Spread st lo (.node r :: vs) hi

/-- No two places below the value are the same node. -/
def Unaliased (st : Store) (v : Value) : Prop :=
  ∀ ks ls r, st.at? v ks = some (.node r) → st.at? v ls = some (.node r) → ks = ls

variable {st st' : Store} {lo mid hi : ℕ} {v w : Value} {vs ws : List Value} {r s : Ref}
  {ks ls : List String}

namespace Spread

theorem le (h : st.Spread lo vs hi) : lo ≤ hi := by
  induction h with
  | nil lo => exact Nat.le_refl lo
  | scalar a _ ih => exact ih
  | node _ _ ihchildren ihrest => omega

theorem append (h : st.Spread lo vs mid) (h' : st.Spread mid ws hi) :
    st.Spread lo (vs ++ ws) hi := by
  induction h with
  | nil lo => exact h'
  | scalar a _ ih => exact .scalar a (ih h')
  | node hchildren _ _ ih => exact .node hchildren (ih h')

/-- The numbers stay as they are while the store grows. -/
theorem later (h : st.Spread lo vs hi) (hext : st.Extends st') (hhi : hi ≤ st.size) :
    st'.Spread lo vs hi := by
  induction h with
  | nil lo => exact .nil lo
  | scalar a _ ih => exact .scalar a (ih hhi)
  | @node lo hi r vs hchildren hrest ihchildren ihrest =>
      have hr : r.index < st.size := hrest.le.trans hhi
      have hbody : st'.children r = st.children r := by
        rw [Store.children, hext.body_eq hr, Store.children]
      exact .node (hbody ▸ ihchildren hr.le) (ihrest hhi)

theorem bounds (h : st.Spread lo vs hi) (hv : v ∈ vs) (hs : st.Reaches v (.node s)) :
    lo ≤ s.index ∧ s.index < hi := by
  induction h generalizing v with
  | nil lo => simp at hv
  | scalar a _ ih =>
      rcases List.mem_cons.mp hv with rfl | hv
      · cases reaches_scalar hs
      · exact ih hv hs
  | @node lo hi r vs hchildren hrest ihchildren ihrest =>
      have hfirst := hchildren.le
      have hlast := hrest.le
      rcases List.mem_cons.mp hv with rfl | hv
      · rcases reaches_node_iff.mp hs with heq | ⟨c, hc, hcs⟩
        · cases heq
          omega
        · have hbounds := ihchildren hc hcs
          omega
      · have hbounds := ihrest hv hs
        omega

theorem apart (h : st.Spread lo vs hi) :
    vs.Pairwise fun v w => ∀ s, st.Reaches v (.node s) → ¬st.Reaches w (.node s) := by
  induction h with
  | nil lo => exact .nil
  | scalar a _ ih => exact .cons (fun w _ s hs => nomatch reaches_scalar hs) ih
  | @node lo hi r vs hchildren hrest _ ih =>
      refine .cons (fun w hw s hs hws => ?_) ih
      have hhead := (Spread.node hchildren (.nil _)).bounds List.mem_cons_self hs
      have htail := hrest.bounds hw hws
      omega

theorem children (h : st.Spread lo vs hi) (hr : .node r ∈ vs) :
    ∃ lo', st.Spread lo' (st.children r) r.index := by
  induction h with
  | nil lo => simp at hr
  | scalar a _ ih => exact ih ((List.mem_cons.mp hr).resolve_left nofun)
  | node hchildren _ _ ih =>
      rcases List.mem_cons.mp hr with heq | hr
      · cases heq
        exact ⟨_, hchildren⟩
      · exact ih hr

/-- What has its nodes numbered in this way is a tree. -/
theorem unaliased (h : st.Spread lo vs hi) (hv : v ∈ vs) : st.Unaliased v := by
  -- A node is numbered after all that its children reach.
  have hbelow : ∀ {lo hi : ℕ} {vs : List Value} {r : Ref} {c : Value}, st.Spread lo vs hi →
      .node r ∈ vs → c ∈ st.children r → ¬st.Reaches c (.node r) := by
    intro lo hi vs r c h hr hc hreach
    obtain ⟨lo', hchildren⟩ := h.children hr
    exact Nat.lt_irrefl _ (hchildren.bounds hc hreach).2
  intro ks
  induction ks generalizing lo hi vs v with
  | nil =>
      rintro (_ | ⟨l, ls⟩) r hks hls
      · rfl
      · cases hks
        obtain ⟨s, c, ⟨⟩, hchild, hc⟩ := at?_cons.mp hls
        exact absurd (reaches_of_at? hc) (hbelow h hv (Body.mem_children_of_child? hchild))
  | cons k ks ih =>
      intro ls r hks hls
      obtain ⟨s, c, rfl, hchild, hc⟩ := at?_cons.mp hks
      have hmem := Body.mem_children_of_child? hchild
      cases ls with
      | nil =>
          cases hls
          exact absurd (reaches_of_at? hc) (hbelow h hv hmem)
      | cons l ls =>
          obtain ⟨s', d, ⟨⟩, hother, hd⟩ := at?_cons.mp hls
          obtain ⟨lo', hchildren⟩ := h.children hv
          by_cases hkl : l = k
          · subst hkl
            cases hchild.symm.trans hother
            rw [ih hchildren hmem ls r hc hd]
          · obtain ⟨siblings, hperm, hsiblings⟩ := Body.children_split hchild
            have hapart := hchildren.apart.perm hperm fun hxy s hy hx => hxy s hx hy
            exact absurd (reaches_of_at? hd)
              (List.rel_of_pairwise_cons hapart (hsiblings l d hkl hother) r (reaches_of_at? hc))

theorem alloc (body : Body) (h : st.Spread lo body.children st.size) :
    (st.alloc body).2.Spread lo [(st.alloc body).1] (st.alloc body).2.size := by
  have hchildren := h.later (extends_alloc st body) (Nat.le_refl _)
  rw [← children_alloc_self] at hchildren
  rw [size_alloc, fst_alloc]
  exact .node hchildren (.nil _)

end Spread

end Store

namespace Template

open Store

variable {st st₁ : Store} {t : Template} {v : Value}

theorem extends_buildList (ts : List Template) (st : Store) : st.Extends (buildList ts st).2 := by
  have hnone := sound_nil st
  exact (buildList_adds hnone (fun t _ => t.build_adds hnone) (grown_refl st [])).ext

/-- Building the template numbers the new nodes depth first. -/
def Numbers (t : Template) : Prop :=
  ∀ st₁ : Store, (t.build st₁).2.Spread st₁.size [(t.build st₁).1] (t.build st₁).2.size

theorem buildList_spread {ts : List Template} (h : ∀ t ∈ ts, t.Numbers) (st₁ : Store) :
    (buildList ts st₁).2.Spread st₁.size (buildList ts st₁).1 (buildList ts st₁).2.size := by
  induction ts generalizing st₁ with
  | nil => exact .nil _
  | cons t ts ih =>
      obtain ⟨ht, hts⟩ := List.forall_mem_cons.mp h
      have hhead := (ht st₁).later (extends_buildList ts _) (Nat.le_refl _)
      exact hhead.append (ih hts _)

theorem buildEntries_spread {es : List (String × Template)} (h : ∀ e ∈ es, e.2.Numbers)
    (hnodup : (es.map Prod.fst).Nodup) (st₁ : Store) :
    (buildEntries es st₁).2.Spread st₁.size (Table.ofList (buildEntries es st₁).1).values
      (buildEntries es st₁).2.size := by
  rw [buildEntries_eq, Table.values_ofList_zip hnodup (by simp [length_buildList])]
  exact buildList_spread (List.forall_mem_map.mpr h) st₁

theorem Describes.numbers (h : t.Describes st v) : t.Numbers := by
  have hentries : ∀ {es : List (String × Template)} {table : Table Value},
      (∀ e ∈ es, ∀ {v}, e.2.Describes st v → e.2.Numbers) →
      DescribesEntries st es table.entries →
      (∀ e ∈ es, e.2.Numbers) ∧ (es.map Prod.fst).Nodup := by
    intro es table ih hes
    have hforall := describesEntries_iff.mp hes
    refine ⟨fun e he => ?_, keys_eq_of_forall₂ hforall ▸ table.nodup⟩
    obtain ⟨f, -, -, hf⟩ := exists_of_forall₂ hforall he
    exact ih e he hf
  induction t using Template.induct generalizing v with
  | scalar a => exact fun st₁ => .scalar a (.nil _)
  | date ms => exact fun st₁ => .alloc (.date ms) (.nil _)
  | list ts ih =>
      obtain ⟨r, items, rfl, -, hitems⟩ := h
      refine fun st₁ => .alloc (.list _) (buildList_spread (fun t ht => ?_) st₁)
      obtain ⟨x, -, hx⟩ := exists_of_forall₂ (describesList_iff.mp hitems) ht
      exact ih t ht hx
  | map es ih =>
      obtain ⟨r, entries, rfl, -, hes⟩ := h
      obtain ⟨hnumbers, hnodup⟩ := hentries ih hes
      exact fun st₁ => Spread.alloc (.map _) (buildEntries_spread hnumbers hnodup st₁)
  | ofClass cls es ih =>
      obtain ⟨r, fields, rfl, -, hes⟩ := h
      obtain ⟨hnumbers, hnodup⟩ := hentries ih hes
      exact fun st₁ => Spread.alloc (.record _ _) (buildEntries_spread hnumbers hnodup st₁)

end Template

/-- No node of a deep copy stands at two places. -/
theorem Store.deepCopy_unaliased {st : Store} {v : Value} (hsound : st.Sound [v])
    (hfounded : st.Founded v) : (st.deepCopy v).2.Unaliased (st.deepCopy v).1 :=
  have hself : st.Within [v] v := within_of_mem List.mem_cons_self
  ((describes_template hsound hself hfounded).numbers st).unaliased List.mem_cons_self

/-- A complete copy of the value: the same tree, made of new and unfrozen nodes, each of which stands
at one place. -/
structure Store.IsDeepCopy (st : Store) (v : Value) (st' : Store) (u : Value) : Prop where
  alike : Alike st' st u v
  fresh : ∀ r, st'.Reaches u (.node r) → st.size ≤ r.index ∧ (st'.node r).frozen = false
  unaliased : st'.Unaliased u

theorem Store.deepCopy_isDeepCopy {st : Store} {v : Value} (hsound : st.Sound [v])
    (hfounded : st.Founded v) : st.IsDeepCopy v (st.deepCopy v).2 (st.deepCopy v).1 :=
  have halike := deepCopy_alike hsound hfounded
  ⟨halike.1, halike.2, deepCopy_unaliased hsound hfounded⟩

end PathCopy
