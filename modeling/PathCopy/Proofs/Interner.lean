import PathCopy.Proofs.Interning
import PathCopy.Proofs.Reading
import PathCopy.Value.Table
import Mathlib.Data.List.Dedup

/-!
An interner as two tables: one from texts to handles, and the texts in the order of their handles. A
handle has 32 bits. As long as fewer than `2 ^ 32` calls are made the tables mirror each other,
whatever the calls are: handles and texts belong together one to one, and a name table that is given
the same texts issues the same handles.
-/

namespace PathCopy

structure Interner where
  handles : Table Name
  texts : Array String

namespace Interner

def get? (t : Interner) (text : String) : Option Name := t.handles.get? text

def lookup (t : Interner) (name : Name) : String := t.texts.getD name.index ""

def size (t : Interner) : Nat := t.texts.size

/-- The handle that comes next. The largest one would be issued again and again. -/
def next (t : Interner) : Name := ⟨min t.texts.size (UInt32.size - 1)⟩

def intern (t : Interner) (text : String) : Name × Interner :=
  match t.get? text with
  | some name => (name, t)
  | none => (t.next, ⟨t.handles.insert text t.next, t.texts.push text⟩)

def initial : Interner := (intern ⟨.empty, #[]⟩ "").2

/-! ### Calls -/

inductive Call
  | intern (text : String)
  | get (text : String)
  | lookup (name : Name)

inductive Answer
  | issued (name : Name)
  | found (name : Option Name)
  | text (text : String)

def perform (t : Interner) : Call → Answer × Interner
  | .intern text => (.issued (t.intern text).1, (t.intern text).2)
  | .get text => (.found (t.get? text), t)
  | .lookup name => (.text (t.lookup name), t)

def performAll (t : Interner) : List Call → List Answer × Interner
  | [] => ([], t)
  | call :: calls =>
    let (answer, t) := t.perform call
    let (answers, t) := t.performAll calls
    (answer :: answers, t)

def Call.interned? : Call → Option String
  | intern text => some text
  | _ => none

/-- What a call and its answer say about handles: this one stands for this text. -/
def Call.issued? : Call × Answer → Option (Name × String)
  | (intern text, .issued name) => some (name, text)
  | _ => none

def after (calls : List Call) : Interner := (initial.performAll calls).2

/-- The texts interned in a row of calls, the empty one before all others. -/
def interned (calls : List Call) : List String := "" :: calls.filterMap Call.interned?

/-- The handles issued in a row of calls, each with the text that it was issued for. -/
def issued (calls : List Call) : List (Name × String) :=
  (⟨0⟩, "") :: (calls.zip (initial.performAll calls).1).filterMap Call.issued?

theorem filterMap_issued?_cons (t : Interner) (call : Call) (calls : List Call) :
    ((call :: calls).zip (t.performAll (call :: calls)).1).filterMap Call.issued? =
      (Call.issued? (call, (t.perform call).1)).toList ++
        (calls.zip ((t.perform call).2.performAll calls).1).filterMap Call.issued? := by
  show List.filterMap Call.issued? ((call, (t.perform call).1) :: _) = _
  rw [List.filterMap_cons]
  cases Call.issued? (call, (t.perform call).1) <;> rfl

/-! ### Mirrored tables -/

/-- Both tables hold these handles with these texts, and nothing else. -/
structure Mirrors (t : Interner) (pairs : List (Name × String)) : Prop where
  get?_iff : ∀ name text, t.get? text = some name ↔ (name, text) ∈ pairs
  text_iff : ∀ name text, t.texts[name.index]? = some text ↔ (name, text) ∈ pairs

variable {t : Interner} {pairs : List (Name × String)} {name name' : Name} {text text' : String}

namespace Mirrors

theorem eq_iff (h : t.Mirrors pairs) (hpair : (name, text) ∈ pairs)
    (hpair' : (name', text') ∈ pairs) : name = name' ↔ text = text' := by
  constructor
  · rintro rfl
    have htext := (h.text_iff _ _).mpr hpair
    have htext' := (h.text_iff _ _).mpr hpair'
    exact Option.some.inj (htext.symm.trans htext')
  · rintro rfl
    have hget := (h.get?_iff _ _).mpr hpair
    have hget' := (h.get?_iff _ _).mpr hpair'
    exact Option.some.inj (hget.symm.trans hget')

theorem lookup (h : t.Mirrors pairs) (hpair : (name, text) ∈ pairs) : t.lookup name = text := by
  rw [Interner.lookup, Array.getD_eq_getD_getElem?, (h.text_iff _ _).mpr hpair]
  rfl

theorem mem_texts (h : t.Mirrors pairs) : text ∈ t.texts.toList ↔ text ∈ pairs.map Prod.snd := by
  constructor
  · intro hmem
    obtain ⟨i, hi⟩ := List.mem_iff_getElem?.mp hmem
    have hpair := (h.text_iff ⟨i⟩ text).mp (by simpa using hi)
    exact List.mem_map_of_mem hpair
  · intro hmem
    obtain ⟨⟨name, _⟩, hpair, rfl⟩ := List.mem_map.mp hmem
    have htext := (h.text_iff _ _).mpr hpair
    rw [← Array.getElem?_toList] at htext
    exact List.mem_of_getElem? htext

theorem nodup (h : t.Mirrors pairs) : t.texts.toList.Nodup := by
  refine List.nodup_iff_getElem?_ne_getElem?.mpr fun i j hij hj heq => ?_
  have hpair : (⟨j⟩, t.texts[j]) ∈ pairs := (h.text_iff _ _).mp (Array.getElem?_eq_getElem hj)
  have hpair' : (⟨i⟩, t.texts[j]) ∈ pairs := by
    refine (h.text_iff _ _).mp ?_
    rw [← Array.getElem?_toList, heq, Array.getElem?_toList, Array.getElem?_eq_getElem hj]
  have hname := (h.eq_iff hpair' hpair).mpr rfl
  exact absurd (congrArg Name.index hname) (Nat.ne_of_lt hij)

theorem size_eq (h : t.Mirrors pairs) : t.size = (pairs.map Prod.snd).dedup.length := by
  have hperm : t.texts.toList.Perm (pairs.map Prod.snd).dedup :=
    (List.perm_ext_iff_of_nodup h.nodup (List.nodup_dedup _)).mpr fun text => by
      rw [h.mem_texts, List.mem_dedup]
  simpa [size] using hperm.length_eq

theorem size_le (h : t.Mirrors pairs) : t.size ≤ pairs.length := by
  rw [h.size_eq, ← List.length_map Prod.snd]
  exact (List.dedup_sublist _).length_le

theorem intern (h : t.Mirrors pairs) (hsize : t.size < UInt32.size) (text : String) :
    (t.intern text).2.Mirrors (pairs ++ [((t.intern text).1, text)]) := by
  unfold Interner.intern
  split
  · rename_i name hget
    -- A text that is known keeps its handle.
    have hmem : (name, text) ∈ pairs := (h.get?_iff name text).mp hget
    have hsame : ∀ pair, pair ∈ pairs ++ [(name, text)] ↔ pair ∈ pairs := by
      simp only [List.mem_append, List.mem_singleton]
      rintro pair
      exact or_iff_left_of_imp fun heq => heq ▸ hmem
    exact ⟨fun k x => (h.get?_iff k x).trans (hsame _).symm,
      fun k x => (h.text_iff k x).trans (hsame _).symm⟩
  · rename_i hget
    -- The table is not full, so the next handle is the number of its texts.
    have hnext : t.next = ⟨t.texts.size⟩ := by
      have hle : t.texts.size ≤ UInt32.size - 1 := by
        have hlt : t.texts.size < UInt32.size := hsize
        omega
      rw [next, Nat.min_eq_left hle]
    constructor
    · intro k x
      show (t.handles.insert text t.next).get? x = some k ↔ _
      rw [Table.get?_insert, List.mem_append, List.mem_singleton, Prod.mk.injEq]
      split
      · rename_i hx
        subst hx
        have hold : (k, x) ∉ pairs := fun hmem => by
          rw [← h.get?_iff, hget] at hmem
          cases hmem
        simp [hold, eq_comm]
      · rename_i hx
        rw [show t.handles.get? x = some k ↔ (k, x) ∈ pairs from h.get?_iff k x]
        simp [hx]
    · intro k x
      rw [Array.getElem?_push, List.mem_append, List.mem_singleton, Prod.mk.injEq]
      split
      · rename_i hk
        have hold : (k, x) ∉ pairs := fun hmem => by
          have htext := (h.text_iff k x).mpr hmem
          rw [hk, Array.getElem?_eq_none (Nat.le_refl _)] at htext
          cases htext
        obtain rfl : k = t.next := by rw [hnext, ← hk]
        simp [hold, eq_comm]
      · rename_i hk
        have hname : k ≠ t.next := fun heq => hk (by rw [heq, hnext])
        rw [h.text_iff]
        simp [hname]

theorem perform (h : t.Mirrors pairs) (call : Call) {left : ℕ}
    (hsize : pairs.length + (left + 1) ≤ UInt32.size) :
    (t.perform call).2.Mirrors
        (pairs ++ (Call.issued? (call, (t.perform call).1)).toList) ∧
      (pairs ++ (Call.issued? (call, (t.perform call).1)).toList).length + left ≤
        UInt32.size := by
  have hone : (Call.issued? (call, (t.perform call).1)).toList.length ≤ 1 :=
    Option.length_toList_le
  refine ⟨?_, by rw [List.length_append]; omega⟩
  have hlt : t.size < UInt32.size := by
    have hle := h.size_le
    omega
  cases call with
  | intern text => exact h.intern hlt text
  | get | lookup =>
      show t.Mirrors (pairs ++ [])
      rwa [List.append_nil]

/-- A row of calls keeps the tables mirrored as long as there is a handle for each call. -/
theorem performAll (h : t.Mirrors pairs) (calls : List Call)
    (hsize : pairs.length + calls.length ≤ UInt32.size) :
    (t.performAll calls).2.Mirrors
      (pairs ++ (calls.zip (t.performAll calls).1).filterMap Call.issued?) := by
  induction calls generalizing t pairs with
  | nil =>
      show t.Mirrors (pairs ++ [])
      rwa [List.append_nil]
  | cons call calls ih =>
      obtain ⟨hfirst, hlength⟩ := h.perform call hsize
      have hrest := ih hfirst hlength
      rw [List.append_assoc] at hrest
      rwa [filterMap_issued?_cons]

end Mirrors

/-! ### Rows of calls -/

theorem mirrors_initial : initial.Mirrors [(⟨0⟩, "")] := by
  have hempty : Mirrors ⟨.empty, #[]⟩ [] := by
    constructor
    · simp [get?, Table.get?, Table.empty, findEntry]
    · simp
  exact hempty.intern (by decide) ""

variable {calls more : List Call}

theorem mirrors_after (h : calls.length < UInt32.size) : (after calls).Mirrors (issued calls) :=
  mirrors_initial.performAll calls (by rw [List.length_singleton]; omega)

theorem map_issued (calls : List Call) : (issued calls).map Prod.snd = interned calls := by
  have hrow : ∀ t : Interner,
      ((calls.zip (t.performAll calls).1).filterMap Call.issued?).map Prod.snd =
        calls.filterMap Call.interned? := by
    induction calls with
    | nil => exact fun _ => rfl
    | cons call calls ih =>
        intro t
        rw [filterMap_issued?_cons, List.map_append, ih]
        cases call <;> rfl
  exact congrArg ("" :: ·) (hrow initial)

/-- What has been answered stays answered. -/
theorem zip_performAll_append (t : Interner) (calls more : List Call) :
    calls.zip (t.performAll calls).1 <+: (calls ++ more).zip (t.performAll (calls ++ more)).1 := by
  induction calls generalizing t with
  | nil => exact List.nil_prefix
  | cons call calls ih => exact List.cons_prefix_cons.mpr ⟨rfl, ih (t.perform call).2⟩

theorem issued_subset (calls more : List Call) : issued calls ⊆ issued (calls ++ more) :=
  List.cons_subset_cons _
    ((zip_performAll_append initial calls more).filterMap Call.issued?).subset

/-! ### Interners and name tables -/

variable {names : NameTable}

theorem get?_iff_knows (hnodup : names.texts.toList.Nodup) :
    names.get? text = some name ↔ names.Knows name text := by
  refine ⟨NameTable.knows_of_get?, fun hknows => ?_⟩
  have hlt : name.index < names.size := (Array.getElem?_eq_some_iff.mp hknows).1
  rw [← hknows.lookup, Parser.get?_lookup hnodup hlt]

/-- With the same texts both find the same handles. -/
theorem Mirrors.get?_eq (h : t.Mirrors pairs) (htexts : t.texts = names.texts) (text : String) :
    t.get? text = names.get? text := by
  have hnodup : names.texts.toList.Nodup := htexts ▸ h.nodup
  refine Option.ext fun name => ?_
  rw [h.get?_iff, ← h.text_iff, htexts, get?_iff_knows hnodup, NameTable.Knows]

theorem Mirrors.texts_intern (h : t.Mirrors pairs) (htexts : t.texts = names.texts)
    (text : String) : (t.intern text).2.texts = (names.intern text).2.texts := by
  have hget := h.get?_eq htexts text
  unfold Interner.intern NameTable.intern
  rw [hget]
  cases names.get? text with
  | none => exact congrArg (·.push text) htexts
  | some name => exact htexts

theorem Mirrors.texts_performAll (h : t.Mirrors pairs) (htexts : t.texts = names.texts)
    (hsize : pairs.length + calls.length ≤ UInt32.size) :
    (t.performAll calls).2.texts = (names.internAll (calls.filterMap Call.interned?)).texts := by
  induction calls generalizing t pairs names with
  | nil => exact htexts
  | cons call calls ih =>
      obtain ⟨hfirst, hlength⟩ := h.perform call hsize
      cases call with
      | intern text => exact ih hfirst (h.texts_intern htexts text) hlength
      | get | lookup => exact ih hfirst htexts hlength

/-- The table of names that is given the same texts. -/
def tabled (calls : List Call) : NameTable :=
  NameTable.initial.internAll (calls.filterMap Call.interned?)

/-! ### What an interner keeps -/

/-- What can be relied on after a row of calls, and on from there. -/
structure Keeps (calls : List Call) : Prop where
  /-- Handles and texts belong together one to one. -/
  oneToOne : ∀ i ∈ issued calls, ∀ j ∈ issued calls, i.1 = j.1 ↔ i.2 = j.2
  /-- The texts are those that were interned. -/
  texts : (issued calls).map Prod.snd = interned calls
  /-- A handle stands for its text, then and at every later point. -/
  lookup : ∀ more, (calls ++ more).length < UInt32.size →
    ∀ i ∈ issued calls, (after (calls ++ more)).lookup i.1 = i.2
  /-- The texts that are found are those that were interned, with their handles. -/
  get : ∀ name text, (after calls).get? text = some name ↔ (name, text) ∈ issued calls
  /-- The size is how many different texts these are. -/
  size : (after calls).size = (interned calls).dedup.length
  /-- A table of names that is given the same texts holds the same under the same handles. -/
  table : (after calls).texts = (tabled calls).texts ∧
    ∀ text, (after calls).get? text = (tabled calls).get? text

theorem keeps {calls : List Call} (h : calls.length < UInt32.size) : Keeps calls where
  oneToOne i hi j hj := (mirrors_after h).eq_iff hi hj
  texts := map_issued calls
  lookup more hmore i hi := (mirrors_after hmore).lookup (issued_subset calls more hi)
  get := (mirrors_after h).get?_iff
  size := by rw [(mirrors_after h).size_eq, map_issued]
  table := by
    have htexts : (after calls).texts = (tabled calls).texts :=
      mirrors_initial.texts_performAll rfl (by rw [List.length_singleton]; omega)
    exact ⟨htexts, (mirrors_after h).get?_eq htexts⟩

end Interner

end PathCopy
