import PathCopy.Procedure.Name
import Mathlib.Data.List.Nodup

/-!
Interning adds to a table and changes nothing in it: a handle stands for the same text in every later
table.
-/

namespace PathCopy

namespace NameTable

def Knows (t : NameTable) (name : Name) (text : String) : Prop :=
  t.texts[name.index]? = some text

def Extends (t t' : NameTable) : Prop := ∀ name text, t.Knows name text → t'.Knows name text

variable {t t' t'' : NameTable} {name : Name} {text : String}

theorem Extends.refl (t : NameTable) : t.Extends t := fun _ _ h => h

theorem Extends.trans (h : t.Extends t') (h' : t'.Extends t'') : t.Extends t'' :=
  fun name text hknows => h' name text (h name text hknows)

theorem Knows.lookup (h : t.Knows name text) : t.lookup name = text := by
  rw [NameTable.lookup, Array.getD_eq_getD_getElem?, h]
  rfl

theorem extends_intern (t : NameTable) (text : String) : t.Extends (t.intern text).2 := by
  intro name known hknows
  unfold intern
  split
  · exact hknows
  · have hlt : name.index < t.texts.size := (Array.getElem?_eq_some_iff.mp hknows).1
    rw [Knows, Array.getElem?_push_lt hlt, ← Array.getElem?_eq_getElem hlt]
    exact hknows

theorem knows_of_get? (h : t.get? text = some name) : t.Knows name text := by
  cases hi : t.texts.finIdxOf? text with
  | none => simp [get?, hi] at h
  | some i =>
      obtain rfl : (⟨i⟩ : Name) = name := by simpa [get?, hi] using h
      have htext : t.texts[i] = text := (Array.finIdxOf?_eq_some_iff.mp hi).1
      exact (Array.getElem?_eq_getElem i.isLt).trans (congrArg some htext)

theorem knows_intern (t : NameTable) (text : String) :
    (t.intern text).2.Knows (t.intern text).1 text := by
  unfold intern
  split
  · rename_i name hget
    exact knows_of_get? hget
  · exact Array.getElem?_push_size

/-! ### Rows of texts -/

def internAll (t : NameTable) (texts : List String) : NameTable :=
  texts.foldl (fun t text => (t.intern text).2) t

theorem internAll_append (t : NameTable) (texts texts' : List String) :
    t.internAll (texts ++ texts') = (t.internAll texts).internAll texts' := List.foldl_append

theorem not_mem_of_get? (h : t.get? text = none) : text ∉ t.texts := by
  cases hindex : t.texts.finIdxOf? text with
  | none => exact Array.finIdxOf?_eq_none_iff.mp hindex
  | some i => simp [get?, hindex] at h

theorem nodup_intern (h : t.texts.toList.Nodup) (text : String) :
    (t.intern text).2.texts.toList.Nodup := by
  unfold intern
  split
  · exact h
  · rename_i hget
    have hnew : text ∉ t.texts.toList := fun hmem =>
      not_mem_of_get? hget (Array.mem_toList_iff.mp hmem)
    rw [Array.toList_push, ← List.concat_eq_append]
    exact h.concat hnew

theorem nodup_internAll (h : t.texts.toList.Nodup) (texts : List String) :
    (t.internAll texts).texts.toList.Nodup := by
  induction texts generalizing t with
  | nil => exact h
  | cons text texts ih => exact ih (nodup_intern h text)

/-- A text that is there once has one handle. -/
theorem Knows.eq_iff (hnodup : t.texts.toList.Nodup) {name' : Name} {text' : String}
    (h : t.Knows name text) (h' : t.Knows name' text') : name = name' ↔ text = text' := by
  constructor
  · rintro rfl
    exact Option.some.inj (h.symm.trans h')
  · rintro rfl
    have hlt : name.index < t.texts.toList.length := (Array.getElem?_eq_some_iff.mp h).1
    have heq : t.texts.toList[name.index]? = t.texts.toList[name'.index]? := by
      rw [Array.getElem?_toList, Array.getElem?_toList, h, h']
    exact congrArg Name.mk ((List.getElem?_inj hlt hnodup).mp heq)

end NameTable

end PathCopy
