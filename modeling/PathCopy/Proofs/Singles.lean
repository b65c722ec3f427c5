import Mathlib.Algebra.BigOperators.Intervals
import PathCopy.Proofs.Trees

/-!
Single references. A path copy refers to each of its new nodes once, and nothing else does: a new
node has one handle, or none. This stays so as long as writes to new nodes put no further references
there.
-/

namespace PathCopy

/-! ### References in containers -/

section Containers

variable {r : Ref} {v : Value} {es : List (String × Value)} {table : Table Value} {key : String}

theorem occurrences_cons (r : Ref) (v : Value) (vs : List Value) :
    occurrences r (v :: vs) = occurrences r [v] + occurrences r vs := by
  rw [← List.singleton_append, occurrences_append]

theorem occurrences_eq_zero {vs : List Value} (h : .node r ∉ vs) : occurrences r vs = 0 :=
  Nat.eq_zero_of_not_pos fun hpos => h (occurrences_pos.mp hpos)

theorem occurrences_putEntry :
    occurrences r ((putEntry key v es).map Prod.snd) ≤
      occurrences r (es.map Prod.snd) + occurrences r [v] := by
  induction es with
  | nil => simp [putEntry]
  | cons e es ih =>
      have hes := occurrences_cons r e.2 (es.map Prod.snd)
      rw [putEntry, List.map_cons]
      split
      · have hput := occurrences_cons r v (es.map Prod.snd)
        rw [List.map_cons]
        dsimp only
        omega
      · have hput := occurrences_cons r e.2 ((putEntry key v es).map Prod.snd)
        rw [List.map_cons]
        dsimp only
        omega

theorem occurrences_insertAll (table : Table Value) :
    occurrences r (table.insertAll es).values ≤
      occurrences r table.values + occurrences r (es.map Prod.snd) := by
  induction es generalizing table with
  | nil => exact Nat.le_add_right _ _
  | cons e es ih =>
      have hinsert : occurrences r (table.insert e.1 e.2).values ≤
          occurrences r table.values + occurrences r [e.2] := occurrences_putEntry
      have hrest := ih (table.insert e.1 e.2)
      rw [Table.insertAll_cons, List.map_cons, occurrences_cons]
      omega

theorem occurrences_ofList (es : List (String × Value)) :
    occurrences r (Table.ofList es).values ≤ occurrences r (es.map Prod.snd) := by
  have hnone : occurrences r (Table.empty : Table Value).values = 0 := rfl
  have hle : occurrences r (Table.empty.insertAll es).values ≤
      occurrences r (Table.empty : Table Value).values + occurrences r (es.map Prod.snd) :=
    occurrences_insertAll .empty
  rwa [hnone, Nat.zero_add] at hle

theorem occurrences_set (items : List Value) (i : ℕ) :
    occurrences r (items.set i v) ≤ occurrences r items + occurrences r [v] := by
  induction items generalizing i with
  | nil => exact Nat.zero_le _
  | cons c items ih =>
      have hitems := occurrences_cons r c items
      cases i with
      | zero =>
          have hset := occurrences_cons r v items
          rw [List.set_cons_zero]
          omega
      | succ i =>
          have hset := occurrences_cons r c (items.set i v)
          have hrest := ih i
          rw [List.set_cons_succ]
          omega

theorem occurrences_setItems (items : List Value) :
    occurrences r (setItems items es) ≤ occurrences r items + occurrences r (es.map Prod.snd) := by
  induction es generalizing items with
  | nil => exact Nat.le_add_right _ _
  | cons e es ih =>
      obtain ⟨key, v⟩ := e
      rw [setItems_cons, List.map_cons, occurrences_cons]
      split
      · next i _ =>
        have hrest := ih (items.set i v)
        have hset := occurrences_set (r := r) (v := v) items i
        dsimp only
        omega
      · have hrest := ih items
        dsimp only
        omega

theorem occurrences_fill (body : Body) :
    occurrences r (body.fill es).children ≤
      occurrences r body.children + occurrences r (es.map Prod.snd) := by
  cases body with
  | date ms => exact Nat.zero_le _
  | list items => exact occurrences_setItems items
  | map entries => exact occurrences_insertAll entries
  | record cls fields => exact occurrences_insertAll fields

end Containers

namespace Store

open Finset

variable {st st₁ st₂ st₃ s : Store} {roots vs ws others : List Value} {low : ℕ} {r t : Ref}
  {v : Value} {body : Body}

/-- The number of references to `r` in the nodes with a number from `low` on. -/
def mentions (st : Store) (low : ℕ) (r : Ref) : ℕ := ∑ i ∈ Ico low st.size, st.slots r i

/-- What building adds to a store: unfrozen nodes, and to each of them one reference at most, from
the nodes with a number from `low` on and from what was built. -/
structure AddsOnce (low : ℕ) (st₁ st₂ : Store) (vs : List Value) : Prop where
  size_le : st₁.size ≤ st₂.size
  frozen : ∀ {r : Ref}, r.index < st₂.size → (st₂.node r).frozen →
    r.index < st₁.size ∧ (st₁.node r).frozen
  once : ∀ r : Ref, low ≤ r.index → st₂.mentions low r + occurrences r vs ≤
    st₁.mentions low r + if st₁.size ≤ r.index ∧ r.index < st₂.size then 1 else 0

namespace AddsOnce

theorem old (hvs : ∀ r : Ref, .node r ∈ vs → r.index < low) : AddsOnce low st₁ st₁ vs where
  size_le := Nat.le_refl _
  frozen hr hfrozen := ⟨hr, hfrozen⟩
  once r hr := by
    rw [occurrences_eq_zero fun hmem => Nat.not_lt_of_le hr (hvs r hmem)]
    exact Nat.le_add_right _ _

theorem append (h : AddsOnce low st₁ st₂ vs) (h' : AddsOnce low st₂ st₃ ws) :
    AddsOnce low st₁ st₃ (vs ++ ws) where
  size_le := h.size_le.trans h'.size_le
  frozen hr hfrozen := by
    obtain ⟨hr', hfrozen'⟩ := h'.frozen hr hfrozen
    exact h.frozen hr' hfrozen'
  once r hr := by
    have hfirst := h.once r hr
    have hrest := h'.once r hr
    have hsize := h.size_le
    have hsize' := h'.size_le
    rw [occurrences_append]
    split_ifs at hfirst hrest ⊢ <;> omega

theorem mono (h : AddsOnce low st₁ st₂ vs)
    (hws : ∀ r : Ref, low ≤ r.index → occurrences r ws ≤ occurrences r vs) :
    AddsOnce low st₁ st₂ ws where
  size_le := h.size_le
  frozen := h.frozen
  once r hr := (Nat.add_le_add_left (hws r hr) _).trans (h.once r hr)

theorem alloc (h : AddsOnce low st₁ st₂ vs) (hlow : low ≤ st₁.size)
    (hbody : ∀ r : Ref, low ≤ r.index → occurrences r body.children ≤ occurrences r vs) :
    AddsOnce low st₁ (st₂.alloc body).2 [(st₂.alloc body).1] where
  size_le := by
    rw [size_alloc]
    exact Nat.le_succ_of_le h.size_le
  frozen {r} hr hfrozen := by
    rw [node_alloc] at hfrozen
    split at hfrozen
    · cases hfrozen
    · next hne =>
      rw [size_alloc] at hr
      exact h.frozen (Nat.lt_of_le_of_ne (Nat.le_of_lt_succ hr) hne) hfrozen
  once r hr := by
    have hmentions : (st₂.alloc body).2.mentions low r =
        st₂.mentions low r + occurrences r body.children := by
      rw [mentions, size_alloc, sum_Ico_succ_top (hlow.trans h.size_le), slots, children_alloc_self]
      refine congrArg (· + _) (sum_congr rfl fun i hi => ?_)
      have hne : (⟨i⟩ : Ref).index ≠ st₂.size := Nat.ne_of_lt (mem_Ico.mp hi).2
      rw [slots, slots, children, body_alloc_of_ne hne, children]
    have hnew : occurrences r [(st₂.alloc body).1] = if r.index = st₂.size then 1 else 0 := by
      rw [fst_alloc]
      split
      · next heq =>
        obtain rfl : r = ⟨st₂.size⟩ := Ref.eq_of_index_eq heq
        rw [occurrences_self, occurrences_nil]
      · next hne =>
        refine (occurrences_of_ne ?_ []).trans (occurrences_nil r)
        rintro rfl
        exact hne rfl
    have hvs := h.once r hr
    have hchildren := hbody r hr
    have hsize := h.size_le
    rw [hmentions, hnew, size_alloc]
    -- The children move from the values into the slots of the new node, which is the only value.
    split_ifs at hvs ⊢ <;> omega

end AddsOnce

/-! ### Copies -/

end Store

section Copy

open Store

variable {st : Store} {roots : List Value} {r : Ref} {v : Value}

namespace Template

/-- Building the template mentions each new node in one place. -/
def AddsOnceTo (low : ℕ) (t : Template) : Prop :=
  ∀ st₁ : Store, low ≤ st₁.size → AddsOnce low st₁ (t.build st₁).2 [(t.build st₁).1]

theorem buildList_addsOnce {low : ℕ} {ts : List Template} (h : ∀ t ∈ ts, t.AddsOnceTo low)
    {st₁ : Store} (hlow : low ≤ st₁.size) :
    AddsOnce low st₁ (buildList ts st₁).2 (buildList ts st₁).1 := by
  induction ts generalizing st₁ with
  | nil => exact .old nofun
  | cons t ts ih =>
      obtain ⟨ht, hts⟩ := List.forall_mem_cons.mp h
      have hhead := ht st₁ hlow
      exact hhead.append (ih hts (hlow.trans hhead.size_le))

theorem buildEntries_addsOnce {low : ℕ} {es : List (String × Template)}
    (h : ∀ e ∈ es, e.2.AddsOnceTo low) {st₁ : Store} (hlow : low ≤ st₁.size) :
    AddsOnce low st₁ (buildEntries es st₁).2 ((buildEntries es st₁).1.map Prod.snd) := by
  rw [values_buildEntries, buildEntries_eq]
  exact buildList_addsOnce (List.forall_mem_map.mpr h) hlow

theorem build_addsOnce (low : ℕ) (t : Template) : t.AddsOnceTo low := by
  have hnone : ∀ st₁, AddsOnce low st₁ st₁ [] := fun _ => .old nofun
  induction t using induct with
  | scalar a => exact fun st₁ _ => .old (by simp [build])
  | date ms => exact fun st₁ h => (hnone st₁).alloc h fun _ _ => Nat.le_refl _
  | list ts ih => exact fun st₁ h => (buildList_addsOnce ih h).alloc h fun _ _ => Nat.le_refl _
  | map es ih =>
      exact fun st₁ h => (buildEntries_addsOnce ih h).alloc h fun _ _ => occurrences_ofList _
  | ofClass cls es ih =>
      exact fun st₁ h => (buildEntries_addsOnce ih h).alloc h fun _ _ => occurrences_ofList _

end Template

/-- The first contents of a copy mention a new node only where a class has built it. -/
theorem Copying.base_addsOnce {low : ℕ} {c : Copying} (hlow : low ≤ c.store.size)
    (keepClass : Bool) (dropped : List String) {body : Body}
    (hbody : ∀ r : Ref, .node r ∈ body.children → r.index < low) :
    AddsOnce low c.store (c.base keepClass dropped body).2.store
      (c.base keepClass dropped body).1.children := by
  cases body with
  | date ms => exact .old nofun
  | list items => exact .old hbody
  | map entries => exact .old fun r hr => hbody r (mem_values_eraseKeys hr)
  | record cls fields =>
      rw [base, recordBase_eq]
      split
      · next es _ =>
        have hbuilt := Template.buildEntries_addsOnce
          (fun e (_ : e ∈ es) => e.2.build_addsOnce low) hlow
        refine hbuilt.mono fun r hr => ?_
        have hown : occurrences r (fields.entries.map Prod.snd) = 0 :=
          occurrences_eq_zero fun hmem => Nat.not_lt_of_le hr (hbody r hmem)
        refine (occurrences_insertAll _).trans ?_
        rw [hown, Nat.add_zero]
        exact occurrences_ofList _
      · exact .old hbody

theorem KeyTree.copy_addsOnce (hsound : st.Sound roots) (keepClass : Bool) :
    (∀ (trail : List String) (v : Value) (tree : KeyTree) (c : Copying),
      st.Within roots v → st.Grown roots c.store →
      AddsOnce st.size c.store (tree.copy keepClass trail v c).2.store
        [(tree.copy keepClass trail v c).1]) ∧
    ∀ (trail : List String) (body : Body) (branches : KeyBranches) (c : Copying),
      (∀ v ∈ body.children, st.Within roots v) → st.Grown roots c.store →
      AddsOnce st.size c.store (branches.copyChildren keepClass trail body c).2.store
        ((branches.copyChildren keepClass trail body c).1.map Prod.snd) := by
  -- The values that are copied refer to nodes that were there before.
  have hold : ∀ {vs : List Value}, (∀ v ∈ vs, st.Within roots v) →
      ∀ r : Ref, .node r ∈ vs → r.index < st.size := fun hvs r hr =>
    hsound r (within_node_iff.mp (hvs _ hr))
  have hnone : ∀ st₁, AddsOnce st.size st₁ st₁ [] := fun _ => .old nofun
  refine KeyTree.copy_induct hsound keepClass
    (P := fun _ _ _ c x => AddsOnce st.size c.store x.2.store [x.1])
    (Q := fun _ _ _ c x => AddsOnce st.size c.store x.2.store (x.1.map Prod.snd))
    ?shared ?scalar ?date ?container ?none ?leaf ?absent ?child
  case shared => exact fun _ _ _ _ _ hv _ => .old (hold (List.forall_mem_singleton.mpr hv))
  case scalar => exact fun _ _ _ _ _ _ => .old (by simp)
  case date =>
    exact fun _ _ _ _ _ _ _ _ hc => (hnone _).alloc hc.size_le fun _ _ => Nat.le_refl _
  case container =>
    intro trail r ends branches c first c₁ new c₂ hcopy ih
    have hchildren := (hcopy.grown.children_within hsound hcopy.within).2
    have hfirst := Copying.base_addsOnce hcopy.grown.size_le keepClass branches.dropped
      (hold hchildren)
    rw [hcopy.base] at hfirst
    refine (hfirst.append ih).alloc hcopy.grown.size_le fun s _ => ?_
    rw [occurrences_append]
    exact occurrences_fill first
  case none => exact fun _ _ _ => hnone _
  case leaf => exact fun _ _ _ _ _ _ _ _ ih => ih
  case absent => rintro _ _ _ _ _ _ _ _ _ rfl _ _ ih; exact ih
  case child => exact fun _ _ _ _ _ _ _ _ _ _ _ _ ih ihrest => ih.append ihrest

end Copy

namespace Store

open Finset

variable {st s : Store} {roots vs others : List Value} {low : ℕ} {r t : Ref} {v : Value}
  {body : Body}

/-- Each node with a number from `low` on is mentioned once at most, in such nodes and in `vs`. -/
def Singly (low : ℕ) (st : Store) (vs : List Value) : Prop :=
  ∀ r : Ref, low ≤ r.index → st.mentions low r + occurrences r vs ≤ 1

/-- The new nodes of a copy are unfrozen and mentioned once at most. -/
theorem copy_singly (hsound : st.Sound roots) (keepClass : Bool) (hv : st.Within roots v)
    (paths : List KeyPath) :
    Singly st.size (st.copy keepClass v paths).2.store [(st.copy keepClass v paths).1] ∧
      ∀ r : Ref, st.size ≤ r.index → r.index < (st.copy keepClass v paths).2.store.size →
        ((st.copy keepClass v paths).2.store.node r).frozen = false := by
  have honce := (KeyTree.copy_addsOnce hsound keepClass).1 [] v (.ofPaths paths) ⟨st, []⟩ hv
    (grown_refl st roots)
  constructor
  · intro r hr
    have hnone : st.mentions st.size r = 0 := by rw [mentions, Ico_self, sum_empty]
    refine (honce.once r hr).trans ?_
    dsimp only
    rw [hnone]
    split <;> simp
  · intro r hr hlt
    refine eq_false_of_ne_true fun hfrozen => ?_
    exact Nat.not_lt_of_le hr (honce.frozen hlt hfrozen).1

theorem Singly.setBody (h : Singly low st vs) (ht : t.index < st.size)
    (hbody : ∀ r, occurrences r body.children ≤ occurrences r (st.children t)) :
    Singly low (st.setBody t body) vs := by
  intro r hr
  refine Nat.le_trans (Nat.add_le_add_right ?_ _) (h r hr)
  rw [mentions, size_setBody, mentions]
  refine sum_le_sum fun i _ => ?_
  rw [slots, slots]
  by_cases hi : (⟨i⟩ : Ref) = t
  · rw [hi, children_setBody_self ht]
    exact hbody r
  · rw [children_setBody_of_ne hi]

/-- A new node that is mentioned once at most has one handle at most. -/
theorem Singly.places_le_one (h : Singly st.size s [v]) (hsound : st.Sound roots)
    (hgrown : st.Grown roots s) (hv : st.Available roots s v)
    (hothers : ∀ u ∈ others, st.Within roots u) (hr : st.size ≤ r.index) :
    s.places (v :: others) r ≤ 1 := by
  have hnone : occurrences r others = 0 := by
    refine occurrences_eq_zero fun hmem => Nat.not_lt_of_le hr ?_
    exact hsound r (within_node_iff.mp (hothers _ hmem))
  have hslots : ∑ i ∈ s.live (v :: others), s.slots r i ≤ s.mentions st.size r := by
    refine sum_le_sum_of_ne_zero fun i hi hne => ?_
    obtain ⟨hlt, u, hu, hreach⟩ := mem_live.mp hi
    refine mem_Ico.mpr ⟨?_, hlt⟩
    -- An old node within reach refers to old nodes only.
    by_contra hold
    have hmem : .node r ∈ s.children ⟨i⟩ := occurrences_pos.mp (Nat.pos_of_ne_zero hne)
    have havailable : st.Available roots s u := by
      rcases List.mem_cons.mp hu with rfl | hu
      · exact hv
      · exact available_of_within (hothers u hu)
    rcases hgrown.available_of_reaches hsound havailable hreach with hwithin | ⟨q, hq, hle, -⟩
    · have hi' := hsound _ (within_node_iff.mp hwithin)
      rw [children, hgrown.body_eq hi'] at hmem
      have hold' := hsound r (within_node_iff.mp (hwithin.reaches (reaches_of_mem_children hmem)))
      exact Nat.not_lt_of_le hr hold'
    · cases hq
      exact hold hle
  have hsingle := h r hr
  rw [places, occurrences_cons, hnone]
  omega

end Store

end PathCopy
