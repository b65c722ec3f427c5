import PathCopy.Copy
import PathCopy.Proofs.Fidelity
import PathCopy.Proofs.Walks

/-!
List indices as keys. A key leads to the element `i` of a list exactly if it is the decimal numeral
of `i`, and no numeral from `2 ^ 64` on leads anywhere. So the keys that the paths go on with at a
node name different elements: each element is copied from the original, once, and its copy stays in
place.
-/

namespace PathCopy

/-! ### Numerals -/

namespace Number

theorem digitsValue_eq_ofDigitChars (ds : List Char) :
    digitsValue ds = Nat.ofDigitChars 10 ds 0 := by
  rw [digitsValue, Nat.ofDigitChars]
  simp only [Nat.mul_comm 10]

/-- A numeral of more than one digit does not begin with a zero. -/
theorem toDigits_cons {n : ℕ} {c : Char} {cs : List Char} (h : Nat.toDigits 10 n = c :: cs)
    (hc : c = '0') : cs = [] := by
  induction n using Nat.strong_induction_on generalizing cs with
  | h n ih =>
      by_cases hn : n < 10
      · rw [Nat.toDigits_of_lt_base hn] at h
        exact (List.cons.inj h).2.symm
      · rw [Nat.toDigits_of_base_le (by decide) (by omega)] at h
        obtain ⟨d, ds, hhead⟩ := List.exists_cons_of_ne_nil (@Nat.toDigits_ne_nil (n / 10) 10)
        rw [hhead, List.cons_append] at h
        obtain ⟨rfl, -⟩ := List.cons.inj h
        -- The leading digits are the numeral of `n / 10`, which is not zero.
        have hds : ds = [] := ih (n / 10) (by omega) hhead
        have hvalue := @Nat.ofDigitChars_ten_toDigits (n / 10)
        rw [hhead, hds, hc] at hvalue
        have hzero : n / 10 = 0 := hvalue.symm
        omega

theorem readIndex?_toString {i : ℕ} (h : i < 2 ^ 64) : readIndex? (toString i) = some i := by
  have htext : (toString i).toList = Nat.toDigits 10 i := by
    rw [Nat.toString_eq_repr, Nat.toList_repr]
  obtain ⟨c, cs, hdigits⟩ := List.exists_cons_of_ne_nil (@Nat.toDigits_ne_nil i 10)
  have hall : (c :: cs).all Char.isDigit := by
    rw [List.all_eq_true, ← hdigits]
    exact fun d => Nat.isDigit_of_mem_toDigits (by decide) (by decide)
  have hvalue : digitsValue (c :: cs) = i := by
    rw [digitsValue_eq_ofDigitChars, ← hdigits, Nat.ofDigitChars_ten_toDigits]
  have hlead : ¬ (c = '0' ∧ cs ≠ []) := fun hzero => hzero.2 (toDigits_cons hdigits hzero.1)
  have hsize : i < UInt64.size := h
  rw [readIndex?, htext, hdigits]
  dsimp only
  rw [if_neg hlead, if_pos hall, hvalue, if_pos hsize]

theorem readIndex?_lt {key : String} {i : ℕ} (h : readIndex? key = some i) : i < 2 ^ 64 := by
  unfold readIndex? at h
  split at h
  · cases h
  · split at h
    · cases h
    · split at h
      · dsimp only at h
        split at h
        · cases h
          assumption
        · cases h
      · cases h

theorem readIndex?_eq_some_iff {key : String} {i : ℕ} :
    readIndex? key = some i ↔ i < 2 ^ 64 ∧ key = toString i := by
  constructor
  · intro h
    have hlt := readIndex?_lt h
    exact ⟨hlt, readIndex?_inj h (readIndex?_toString hlt)⟩
  · rintro ⟨hlt, rfl⟩
    exact readIndex?_toString hlt

theorem readIndex?_eq_none_iff {key : String} :
    readIndex? key = none ↔ ∀ i : ℕ, key = toString i → 2 ^ 64 ≤ i := by
  rw [Option.eq_none_iff_forall_ne_some]
  simp only [ne_eq, readIndex?_eq_some_iff, not_and']
  exact forall₂_congr fun i _ => not_lt

end Number

/-! ### The keys of a node -/

theorem KeyBranches.mem_keys_iff {branches : KeyBranches} {k : String} :
    k ∈ branches.keys ↔ ∃ t, branches.find? k = some t := by
  rw [← Option.isSome_iff_exists, ← Option.ne_none_iff_isSome, ne_eq, find?_eq_none, not_not]

theorem KeyBranches.Regular.nodup {branches : KeyBranches} (h : branches.Regular) :
    branches.keys.Nodup := by
  match branches, h with
  | .nil, _ => exact List.nodup_nil
  | .cons key tree rest, h =>
      refine List.nodup_cons.mpr ⟨fun hmem => ?_, Regular.nodup h.2.2.2⟩
      obtain ⟨t, ht⟩ := KeyBranches.mem_keys_iff.mp hmem
      exact Option.some_ne_none t (ht.symm.trans h.1)

namespace KeyTree

variable {t : KeyTree} {q keys : List String} {e : Effect}

def behind (t : KeyTree) (q : List String) : KeyTree := q.foldl under t

theorem Regular.branches (h : t.Regular) : t.branches.Regular := by
  obtain ⟨ends, branches⟩ := t
  exact h

theorem Regular.behind (h : t.Regular) (q : List String) : (t.behind q).Regular := by
  induction q generalizing t with
  | nil => exact h
  | cons k q ih => exact ih (h.under k)

theorem holds_behind : (t.behind q).Holds keys e ↔ t.Holds (q ++ keys) e := by
  induction q generalizing t with
  | nil => exact Iff.rfl
  | cons k q ih => exact ih

/-- The branches at a position, which group the paths that go on behind it by their next keys. -/
def front (paths : List KeyPath) (q : List String) : KeyBranches :=
  ((ofPaths paths).behind q).branches

theorem nodup_front (paths : List KeyPath) (q : List String) : (front paths q).keys.Nodup :=
  ((regular_ofPaths paths).behind q).branches.nodup

theorem mem_front {paths : List KeyPath} {k : String} :
    k ∈ (front paths q).keys ↔ ∃ p ∈ paths, q ++ [k] <+: p.keys := by
  have hregular := (regular_ofPaths paths).behind q
  rw [front]
  generalize htree : (ofPaths paths).behind q = tree at hregular ⊢
  have hholds : ∀ keys e, tree.Holds keys e ↔ ⟨q ++ keys, e⟩ ∈ paths := fun keys e => by
    rw [← htree, holds_behind, holds_ofPaths]
  obtain ⟨ends, branches⟩ := tree
  rw [KeyTree.branches, KeyBranches.mem_keys_iff]
  constructor
  · rintro ⟨t, ht⟩
    obtain ⟨htree, hleaf⟩ := KeyBranches.Regular.find? hregular ht
    obtain ⟨keys, e, hpath⟩ := exists_holds t htree hleaf
    refine ⟨_, (hholds (k :: keys) e).mp ?_, keys, by simp⟩
    rwa [Holds, under, KeyTree.branches, KeyBranches.under, ht]
  · rintro ⟨⟨_, e⟩, hp, keys, rfl⟩
    rw [List.append_assoc] at hp
    have hpath := (hholds (k :: keys) e).mpr hp
    rw [Holds, under, KeyTree.branches, KeyBranches.under] at hpath
    cases hfind : branches.find? k with
    | some t => exact ⟨t, rfl⟩
    | none =>
        rw [hfind] at hpath
        exact absurd hpath not_holds_empty

end KeyTree

/-! ### The copies of the elements of a list -/

/-- The children that are copied are children under keys of the branches, in the order of the
keys. -/
theorem keys_copyChildren (keepClass : Bool) (trail : List String) (body : Body)
    (branches : KeyBranches) (c : Copying) :
    ((branches.copyChildren keepClass trail body c).1.map Prod.fst).Sublist
      (branches.keys.filter fun k => (body.child? k).isSome) := by
  have hskip : ∀ (key : String) (tree : KeyTree) (rest : KeyBranches) (body : Body),
      (rest.keys.filter fun k => (body.child? k).isSome).Sublist
        ((KeyBranches.cons key tree rest).keys.filter fun k => (body.child? k).isSome) :=
    fun key tree rest body => (List.sublist_cons_self key rest.keys).filter _
  refine (KeyTree.copy_steps keepClass (P := fun _ _ _ _ _ => True)
    (Q := fun _ body branches _ x => (x.1.map Prod.fst).Sublist
      (branches.keys.filter fun k => (body.child? k).isSome))
    ?shared ?scalar ?date ?container ?none ?leaf ?absent ?child).2 trail body branches c
  case shared => exact fun _ _ _ _ _ => trivial
  case scalar => exact fun _ _ _ _ _ _ => trivial
  case date => exact fun _ _ _ _ _ _ _ _ => trivial
  case container => exact fun _ _ _ _ _ _ _ _ _ _ _ => trivial
  case none => exact fun _ _ _ => List.nil_sublist _
  case leaf => exact fun _ body key ends rest _ ih => ih.trans (hskip key _ rest body)
  case absent =>
    exact fun _ body key tree rest _ _ _ _ _ ih => ih.trans (hskip key tree rest body)
  case child =>
    intro trail body key tree rest c w w' c₁ new c₂ hcopy _ ih
    rw [KeyBranches.keys, List.filter_cons_of_pos (by rw [hcopy.child]; rfl)]
    exact .cons_cons key ih

/-- The element under a key that no other new entry has is still there when its turn comes, and what
replaces it stays. -/
theorem getElem?_setItems_split {items : List Value} {before after : List (String × Value)}
    {key : String} {w v : Value} {i : ℕ}
    (hnodup : ((before ++ (key, w) :: after).map Prod.fst).Nodup)
    (hkey : Number.readIndex? key = some i) (hv : items[i]? = some v) :
    (setItems items before)[i]? = some v ∧
      (setItems items (before ++ (key, w) :: after))[i]? = some w := by
  rw [List.map_append, List.map_cons, List.nodup_middle, List.nodup_cons, List.mem_append,
    not_or] at hnodup
  obtain ⟨⟨hbefore, hafter⟩, -⟩ := hnodup
  have hother : ∀ {new : List (String × Value)}, key ∉ new.map Prod.fst →
      ∀ k ∈ new.map Prod.fst, Number.readIndex? k ≠ some i := fun hnot k hk hi =>
    hnot (Number.readIndex?_inj hi hkey ▸ hk)
  have hstill : (setItems items before)[i]? = some v :=
    (getElem?_setItems_of_ne (hother hbefore)).trans hv
  have hlt : i < (setItems items before).length := (List.getElem?_eq_some_iff.mp hstill).1
  have happend : setItems items (before ++ (key, w) :: after) =
      setItems (setItems items before) ((key, w) :: after) := List.foldl_append
  refine ⟨hstill, ?_⟩
  rw [happend, setItems_cons, hkey, getElem?_setItems_of_ne (hother hafter)]
  exact List.getElem?_set_self hlt

/-- A key leads to the element `i` exactly if it is the numeral of `i`, and `i` can be an index;
every other key leads to no element. The keys that paths go on with at a node are all different, so
no two of them lead to one element. Of a list, each element that is copied is the original one when
its key has its turn, and its copy is in its place in the end. -/
theorem Number.readIndex?_canonical :
    (∀ (key : String) (i : ℕ), readIndex? key = some i ↔ i < 2 ^ 64 ∧ key = toString i) ∧
    (∀ key : String, readIndex? key = none ↔ ∀ i : ℕ, key = toString i → 2 ^ 64 ≤ i) ∧
    ∀ (paths : List KeyPath) (q : List String),
      (∀ k, k ∈ (KeyTree.front paths q).keys ↔ ∃ p ∈ paths, q ++ [k] <+: p.keys) ∧
      (KeyTree.front paths q).keys.Nodup ∧
      (∀ k ∈ (KeyTree.front paths q).keys, ∀ l ∈ (KeyTree.front paths q).keys, k ≠ l →
        ∀ i, ¬ (readIndex? k = some i ∧ readIndex? l = some i)) ∧
      ∀ (keepClass : Bool) (trail : List String) (items : List Value) (c : Copying)
        (before : List (String × Value)) (key : String) (w : Value)
        (after : List (String × Value)),
        ((KeyTree.front paths q).copyChildren keepClass trail (.list items) c).1 =
          before ++ (key, w) :: after →
        ∃ (i : ℕ) (v : Value), key = toString i ∧ items[i]? = some v ∧
          (setItems items before)[i]? = some v ∧
          (setItems items (before ++ (key, w) :: after))[i]? = some w := by
  refine ⟨fun key i => readIndex?_eq_some_iff, fun key => readIndex?_eq_none_iff,
    fun paths q => ⟨fun k => KeyTree.mem_front, KeyTree.nodup_front paths q, ?_, ?_⟩⟩
  · rintro k - l - hne i ⟨hk, hl⟩
    exact hne (readIndex?_inj hk hl)
  · intro keepClass trail items c before key w after hnew
    have hkeys := keys_copyChildren keepClass trail (.list items) (KeyTree.front paths q) c
    rw [hnew] at hkeys
    have hmem : key ∈ (before ++ (key, w) :: after).map Prod.fst := by simp
    have hchild := (List.mem_filter.mp (hkeys.subset hmem)).2
    obtain ⟨v, hv⟩ := Option.isSome_iff_exists.mp hchild
    rw [Body.child?, Option.bind_eq_some_iff] at hv
    obtain ⟨i, hi, hv⟩ := hv
    have hnodup := hkeys.nodup ((KeyTree.nodup_front paths q).filter _)
    obtain ⟨hstill, hplaced⟩ := getElem?_setItems_split hnodup hi hv
    exact ⟨i, v, (readIndex?_eq_some_iff.mp hi).2, hv, hstill, hplaced⟩

def racks : Store :=
  ⟨#[⟨true, .record none (.ofList [("size", .text "small")])⟩,
    ⟨true, .record none (.ofList [("size", .text "large")])⟩]⟩

/-- Paths through both elements of the list under `rows`, the second one first. -/
def rackPaths : List KeyPath :=
  [⟨["rows", "1", "size"], .assign⟩, ⟨["rows", "0", "size"], .assign⟩]

/-- The copy of the first element finds the original one in its place, although the second has been
copied before. -/
theorem Number.readIndex?_canonical_racks :
    ((KeyTree.front rackPaths ["rows"]).copyChildren true ["rows"]
      (.list [.node ⟨0⟩, .node ⟨1⟩]) ⟨racks, []⟩).1 =
        [("1", .node ⟨2⟩)] ++ ("0", .node ⟨3⟩) :: [] ∧
    ∃ (i : ℕ) (v : Value), "0" = toString i ∧
      ([.node ⟨0⟩, .node ⟨1⟩] : List Value)[i]? = some v ∧
      (setItems [.node ⟨0⟩, .node ⟨1⟩] [("1", .node ⟨2⟩)])[i]? = some v ∧
      (setItems [.node ⟨0⟩, .node ⟨1⟩] ([("1", .node ⟨2⟩)] ++ ("0", .node ⟨3⟩) :: []))[i]? =
        some (.node ⟨3⟩) := by
  have hnew : ((KeyTree.front rackPaths ["rows"]).copyChildren true ["rows"]
      (.list [.node ⟨0⟩, .node ⟨1⟩]) ⟨racks, []⟩).1 =
        [("1", .node ⟨2⟩)] ++ ("0", .node ⟨3⟩) :: [] := rfl
  obtain ⟨-, -, -, hplaces⟩ := readIndex?_canonical.2.2 rackPaths ["rows"]
  exact ⟨hnew, hplaces _ _ _ _ _ _ _ _ hnew⟩

/-- The largest index, the next number, a leading zero and a sign. -/
example : ["18446744073709551615", "18446744073709551616", "0", "00", "07", "+7", ""].map
    Number.readIndex? = [some 18446744073709551615, none, some 0, none, none, none, none] := by
  decide

end PathCopy
