import PathCopy.Proofs.Trees

/-!
Thinned trees. Some map entries of a tree, given by their positions, are left out; everything else
stays, in its order. Where no position is given, nothing is left out.
-/

namespace PathCopy

namespace Template

open Classical in
mutual

/-- The tree without the map entries at the positions in `R`. -/
noncomputable def thin (R : List String → Prop) : Template → Template
  | .scalar a => .scalar a
  | .date ms => .date ms
  | .list ts => .list (thinItems R 0 ts)
  | .map es => .map (thinEntries R (fun k => R [k]) es)
  | .ofClass cls es => .ofClass cls (thinEntries R (fun _ => False) es)

noncomputable def thinItems (R : List String → Prop) (i : ℕ) : List Template → List Template
  | [] => []
  | t :: ts =>
    t.thin (fun q => ∃ k, Number.readIndex? k = some i ∧ R (k :: q)) :: thinItems R (i + 1) ts

/-- The entries whose keys are not in `D`. -/
noncomputable def thinEntries (R : List String → Prop) (D : String → Prop) :
    List (String × Template) → List (String × Template)
  | [] => []
  | (k, t) :: es =>
    if D k then thinEntries R D es
    else (k, t.thin fun q => R (k :: q)) :: thinEntries R D es

end

variable {R S : List String → Prop} {D E : String → Prop} {t : Template} {ts : List Template}
  {es : List (String × Template)} {k : String} {i n : ℕ}

theorem describesList_iff_getElem? {st : Store} {items : List Value} :
    DescribesList st ts items ↔ ts.length = items.length ∧
      ∀ (i : ℕ) t v, ts[i]? = some t → items[i]? = some v → t.Describes st v :=
  describesList_iff.trans forall₂_iff_getElem?

theorem describesEntries_iff_get? {st : Store} {table : Table Value} :
    DescribesEntries st es table.entries ↔ table.keys = es.map Prod.fst ∧
      ∀ k t v, findEntry k es = some t → table.get? k = some v → t.Describes st v :=
  describesEntries_iff.trans (forall₂_iff_findEntry table.nodup)

theorem DescribesEntries.get? {st : Store} {table : Table Value}
    (h : DescribesEntries st es table.entries) (k : String) :
    Option.Rel (Describes st) (findEntry k es) (table.get? k) := by
  rw [Table.get?]
  generalize table.entries = entries at h ⊢
  rw [describesEntries_iff] at h
  induction h with
  | nil => exact .none
  | cons he _ ih =>
      rw [findEntry, findEntry, he.1]
      split
      · exact .some he.2
      · exact ih

theorem DescribesList.getElem? {st : Store} {items : List Value}
    (h : DescribesList st ts items) (i : ℕ) :
    Option.Rel (Describes st) ts[i]? items[i]? := by
  rw [describesList_iff] at h
  induction h generalizing i with
  | nil => exact .none
  | cons ht _ ih =>
      cases i with
      | zero => exact .some ht
      | succ i => exact ih i

theorem thinItems_eq_mapIdx (n : ℕ) : thinItems R n ts = ts.mapIdx fun i t =>
    t.thin fun q => ∃ k, Number.readIndex? k = some (n + i) ∧ R (k :: q) := by
  induction ts generalizing n with
  | nil => rfl
  | cons t ts ih =>
      rw [thinItems, ih, List.mapIdx_cons, Nat.add_zero]
      simp only [Nat.add_assoc, Nat.add_comm 1]
      rfl

@[simp] theorem length_thinItems : (thinItems R n ts).length = ts.length := by
  rw [thinItems_eq_mapIdx, List.length_mapIdx]

theorem item_eq (hk : Number.readIndex? k = some i) :
    (fun q => ∃ l, Number.readIndex? l = some i ∧ R (l :: q)) = fun q => R (k :: q) := by
  funext q
  refine propext ⟨?_, fun h => ⟨k, hk, h⟩⟩
  rintro ⟨l, hl, h⟩
  rwa [Number.readIndex?_inj hk hl]

theorem getElem?_thinItems (hk : Number.readIndex? k = some i) :
    (thinItems R 0 ts)[i]? = ts[i]?.map (thin fun q => R (k :: q)) := by
  rw [thinItems_eq_mapIdx, List.getElem?_mapIdx, Nat.zero_add, item_eq hk]

theorem keys_thinEntries : (thinEntries R D es).map Prod.fst =
    open Classical in (es.map Prod.fst).filter fun k => ¬ D k := by
  induction es with
  | nil => rfl
  | cons e es ih =>
      rw [thinEntries]
      by_cases h : D e.1
      · simp [h, ih]
      · simp [h, ih]

theorem findEntry_thinEntries : findEntry k (thinEntries R D es) =
    open Classical in if D k then none else (findEntry k es).map (thin fun q => R (k :: q)) := by
  induction es with
  | nil => simp [thinEntries, findEntry]
  | cons e es ih =>
      rw [thinEntries, findEntry]
      by_cases hk : e.1 = k
      · subst hk
        by_cases h : D e.1
        · simp [h, ih]
        · simp [h, findEntry]
      · by_cases h : D e.1
        · simp [h, ih, hk]
        · simp [h, ih, hk, findEntry]

theorem thin_eq_self (h : ∀ k q, ¬ R (k :: q)) : t.thin R = t := by
  have hentries : ∀ {es : List (String × Template)} {R : List String → Prop} {D : String → Prop},
      (∀ k q, ¬ R (k :: q)) → (∀ k, ¬ D k) →
      (∀ e ∈ es, ∀ {R : List String → Prop}, (∀ k q, ¬ R (k :: q)) → e.2.thin R = e.2) →
      thinEntries R D es = es := by
    intro es R D hR hD ih
    induction es with
    | nil => rfl
    | cons e es ihes =>
        obtain ⟨hhead, htail⟩ := List.forall_mem_cons.mp ih
        rw [thinEntries, if_neg (hD e.1), hhead (fun k q => hR e.1 (k :: q)), ihes htail]
  induction t using Template.induct generalizing R with
  | scalar a => rfl
  | date ms => rfl
  | list ts ih =>
      rw [thin]
      congr 1
      refine List.ext_getElem? fun i => ?_
      rw [thinItems_eq_mapIdx, List.getElem?_mapIdx]
      cases hi : ts[i]? with
      | none => rfl
      | some t =>
          refine congrArg some (ih t (List.mem_of_getElem? hi) ?_)
          rintro k q ⟨l, -, hl⟩
          exact h l (k :: q) hl
  | map es ih => rw [thin, hentries h (fun k => h k []) ih]
  | ofClass cls es ih => rw [thin, hentries h (fun _ => id) ih]

/-! ### Positions -/

/-- What a key leads to in a tree. -/
def get? (k : String) : Template → Option Template
  | .list ts => (Number.readIndex? k).bind (ts[·]?)
  | .map es => findEntry k es
  | .ofClass _ es => findEntry k es
  | _ => none

def at? : Template → List String → Option Template
  | t, [] => some t
  | t, k :: q => (t.get? k).bind fun c => c.at? q

/-- A tree has something exactly where the value has that it describes. -/
theorem Describes.at? {st : Store} {v : Value} (h : t.Describes st v) (q : List String) :
    Option.Rel (Describes st) (t.at? q) (st.at? v q) := by
  induction q generalizing t v with
  | nil => exact .some h
  | cons k q ih =>
      have hchild : ∀ {x : Option Template} {y : Option Value}, Option.Rel (Describes st) x y →
          Option.Rel (Describes st) (x.bind fun c => c.at? q) (y.bind fun c => st.at? c q) := by
        intro x y hxy
        cases hxy with
        | none => exact .none
        | some hc => exact ih hc
      cases v with
      | scalar a =>
          obtain rfl := h.scalar_inv
          exact .none
      | node r =>
          have hinv := h.node_inv
          rw [Store.at?, Template.at?]
          cases hbody : st.body r with
          | date ms =>
              rw [hbody] at hinv
              subst hinv
              exact .none
          | list items =>
              rw [hbody] at hinv
              obtain ⟨ts, rfl, hts⟩ := hinv
              refine hchild ?_
              rw [get?, Body.child?]
              cases Number.readIndex? k with
              | none => exact .none
              | some i => exact hts.getElem? i
          | map entries =>
              rw [hbody] at hinv
              obtain ⟨es, rfl, hes⟩ := hinv
              exact hchild (hes.get? k)
          | record cls fields =>
              rw [hbody] at hinv
              obtain ⟨es, rfl, hes⟩ := hinv
              exact hchild (hes.get? k)

theorem Describes.isSome_at? {st : Store} {v : Value} (h : t.Describes st v) (q : List String) :
    (t.at? q).isSome = (st.at? v q).isSome := by
  have hrel := h.at? q
  generalize t.at? q = x at hrel ⊢
  generalize st.at? v q = y at hrel ⊢
  cases hrel <;> rfl

theorem get?_thin {b : Template} (h : (t.thin R).get? k = some b) :
    ∃ c, t.get? k = some c ∧ c.thin (fun q => R (k :: q)) = b := by
  have hentries : ∀ {es : List (String × Template)} {D : String → Prop},
      findEntry k (thinEntries R D es) = some b →
      ∃ c, findEntry k es = some c ∧ c.thin (fun q => R (k :: q)) = b := by
    intro es D hfind
    rw [findEntry_thinEntries] at hfind
    split at hfind
    · cases hfind
    · exact Option.map_eq_some_iff.mp hfind
  cases t with
  | scalar a => cases h
  | date ms => cases h
  | map es => exact hentries h
  | ofClass cls es => exact hentries h
  | list ts =>
      obtain ⟨i, hi, hitem⟩ := Option.bind_eq_some_iff.mp h
      rw [getElem?_thinItems hi] at hitem
      rw [get?, hi]
      exact Option.map_eq_some_iff.mp hitem

/-- A thinned tree has something only where the tree has something. -/
theorem isSome_at?_of_thin {q : List String} (h : ((t.thin R).at? q).isSome) :
    (t.at? q).isSome := by
  induction q generalizing t R with
  | nil => rfl
  | cons k q ih =>
      obtain ⟨b, hb⟩ := Option.isSome_iff_exists.mp h
      obtain ⟨u, hu, hrest⟩ := Option.bind_eq_some_iff.mp hb
      obtain ⟨c, hc, rfl⟩ := get?_thin hu
      rw [at?, hc]
      exact ih (Option.isSome_of_eq_some hrest)

end Template

end PathCopy
