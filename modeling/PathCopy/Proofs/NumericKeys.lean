import PathCopy.Proofs.Keys
import PathCopy.Proofs.Reach
import PathCopy.Proofs.Spelling

/-!
Numbers as keys. In brackets a number selects the key that is the text of its value, when it is read,
when it is written and when it is analysed. Before a colon the same number makes a field that is
called what stands in the source. The two are one field where the number is written as the text of
its value, and only there.
-/

namespace PathCopy

/-! ### The texts of numbers -/

namespace Number

/-- The characters of an exponent and of a hexadecimal number that are no digits. -/
def isMark (c : Char) : Bool := c == 'e' || c == 'E' || c == 'x' || c == 'X'

/-- Whether a number is hexadecimal, or has an exponent, or no digit before its point. -/
def isMarked (text : List Char) : Bool := text.head? == some '.' || text.any isMark

/-- A text that begins with a digit and has nothing but digits and points. -/
structure IsPlain (text : List Char) : Prop where
  begins : ∃ c ∈ text.head?, c.isDigit
  chars : ∀ c ∈ text, c.isDigit ∨ c = '.'

theorem isPlain_append {digits rest : List Char} (hne : digits ≠ [])
    (hdigits : ∀ c ∈ digits, c.isDigit) (hrest : ∀ c ∈ rest, c.isDigit ∨ c = '.') :
    IsPlain (digits ++ rest) where
  begins := by
    obtain ⟨c, cs, rfl⟩ := List.exists_cons_of_ne_nil hne
    exact ⟨c, rfl, hdigits c List.mem_cons_self⟩
  chars := List.forall_mem_append.mpr ⟨fun c hc => .inl (hdigits c hc), hrest⟩

/-- Positional notation has a digit before its point and no other characters than these. -/
theorem isPlain_positional (d : Decimal) : IsPlain d.positional := by
  have hne : Decimal.digitChars d.digits ≠ [] := Nat.toDigits_ne_nil
  have hdigits : ∀ c ∈ Decimal.digitChars d.digits, c.isDigit := fun c =>
    Nat.isDigit_of_mem_toDigits (by decide) (by decide)
  have hzeros : ∀ n, ∀ c ∈ List.replicate n '0', c.isDigit := fun n c hc => by
    rw [List.eq_of_mem_replicate hc]
    decide
  have hpoint : ∀ {cs : List Char}, (∀ c ∈ cs, c.isDigit) →
      ∀ c ∈ '.' :: cs, c.isDigit ∨ c = '.' := fun hcs =>
    List.forall_mem_cons.mpr ⟨.inr rfl, fun c hc => .inl (hcs c hc)⟩
  unfold Decimal.positional
  dsimp only
  split
  · exact isPlain_append hne hdigits fun c hc => .inl (hzeros _ c hc)
  · split
    · rename_i hplaces
      refine isPlain_append (fun htake => ?_) (fun c hc => hdigits c (List.mem_of_mem_take hc))
        (hpoint fun c hc => hdigits c (List.mem_of_mem_drop hc))
      rcases List.take_eq_nil_iff.mp htake with hzero | hnil
      · omega
      · exact hne hnil
    · show IsPlain (['0'] ++ '.' :: (List.replicate _ '0' ++ Decimal.digitChars d.digits))
      exact isPlain_append (List.cons_ne_nil '0' []) (List.forall_mem_singleton.mpr rfl)
        (hpoint (List.forall_mem_append.mpr ⟨hzeros _, hdigits⟩))

theorem IsPlain.not_isMark {text : List Char} (h : IsPlain text) {c : Char} (hc : c ∈ text) :
    ¬ isMark c := by
  intro hmark
  have hplain := h.chars c hc
  simp only [isMark, Bool.or_eq_true, beq_iff_eq] at hmark
  rcases hmark with ((rfl | rfl) | rfl) | rfl <;> exact absurd hplain (by decide)

theorem IsPlain.not_isMarked {text : List Char} (h : IsPlain text) {sign : List Char}
    (hsign : sign = [] ∨ sign = ['-']) : ¬ isMarked (sign ++ text) := by
  rw [isMarked, Bool.or_eq_true, beq_iff_eq, List.any_eq_true]
  rcases hsign with rfl | rfl
  · rintro (hpoint | ⟨c, hc, hmark⟩)
    · obtain ⟨d, hd, hdigit⟩ := h.begins
      cases hd.symm.trans hpoint
      exact absurd hdigit (by decide)
    · exact h.not_isMark hc hmark
  · rintro (hpoint | ⟨c, hc, hmark⟩)
    · cases hpoint
    · rcases List.mem_cons.mp hc with rfl | hc
      · exact absurd hmark (by decide)
      · exact h.not_isMark hc hmark

/-- The text of a number is written without a mark. -/
theorem not_isMarked_keyText (x : Float) : ¬ isMarked (keyText x).toList := by
  have htext : ¬ isMarked (text x).toList := by
    unfold text
    split
    · split
      · decide
      · split <;> decide
    · rename_i d _
      rw [String.toList_ofList]
      refine IsPlain.not_isMarked ?_ ?_
      · split
        · exact ⟨⟨'0', rfl, rfl⟩, List.forall_mem_singleton.mpr (.inl rfl)⟩
        · exact isPlain_positional _
      · split
        · exact .inr rfl
        · exact .inl rfl
  unfold keyText
  split
  · decide
  · split
    · decide
    · split
      · exact htext
      · split <;> decide

end Number

/-! ### Numbers in brackets -/

/-- An expression in brackets selects the key `k`: for a read, for a write, and in the analysis. -/
structure Procedure.Selects (p : Procedure) (index : Expr) (k : String) : Prop where
  read : ∀ held site base, Run.eval p.names held (.index site base index) = (do
    let v ← Run.eval p.names held base
    Run.property v k site.span)
  write : ∀ held site base, Run.place p.names held (.index site base index) = (do
    let pl ← Run.place p.names held base
    pure { pl with steps := pl.steps ++ [.key k] })
  recorded : ∀ roles, p.segment? roles index = some (.key k)

theorem Procedure.Selects.unique {p : Procedure} {index : Expr} {k k' : String}
    (h : p.Selects index k) (h' : p.Selects index k') : k = k' := by
  have hkey := (h.recorded ⟨⟨0⟩, none⟩).symm.trans (h'.recorded ⟨⟨0⟩, none⟩)
  cases hkey
  rfl

theorem Run.key_number {x : Float} (h : x.isFinite) (span : Span) :
    Run.key (.number x) span = pure (Number.keyText x) := by
  rw [Run.key, Value.key?, if_pos h]

theorem Procedure.selects_number (p : Procedure) (site : Site) {bits : UInt64}
    (h : (Float.ofBits bits).isFinite) :
    p.Selects (.number site bits) (Number.keyText (Float.ofBits bits)) := by
  refine ⟨fun held site base => ?_, fun held site base => ?_, fun roles => rfl⟩
  · simp only [Run.eval, pure_bind, Run.key_number h]
  · simp only [Run.place, Run.eval, pure_bind, Run.key_number h]

/-! ### Fields of object literals -/

namespace Run

variable {names : NameTable} {held : List Value} {m m' : Machine}

theorem evalEntries_contains {entries : List Property} {fields fields' : Table Value}
    (h : evalEntries names held fields entries m = .ok fields' m') (k : String) :
    fields'.contains k ↔ fields.contains k ∨ ∃ entry ∈ entries, names.lookup entry.key = k := by
  induction entries generalizing fields m with
  | nil =>
      rw [evalEntries] at h
      cases h
      simp
  | cons entry entries ih =>
      obtain ⟨name, span, value⟩ := entry
      rw [evalEntries] at h
      obtain ⟨v, m₁, -, h⟩ := bind_ok h
      rw [ih h, Table.contains, Table.contains, Table.get?_insert]
      by_cases hk : k = names.lookup name
      · simp [hk, Property.key]
      · simp [hk, Ne.symm hk, Property.key]

/-- The fields of the record that an object literal makes are called what its entries say. -/
theorem eval_object_fields {site : Site} {entries : List Property} {v : Value}
    (h : eval names held (.object site entries) m = .ok v m') :
    ∃ r fields, v = .node r ∧ m'.store.body r = .record none fields ∧
      ∀ k, fields.contains k ↔ ∃ entry ∈ entries, names.lookup entry.key = k := by
  rw [eval] at h
  obtain ⟨fields, m₁, hfields, halloc⟩ := bind_ok h
  cases halloc
  refine ⟨_, fields, rfl, Store.body_alloc_self _ _, fun k => ?_⟩
  rw [evalEntries_contains hfields, Table.contains]
  simp [Table.empty, Table.get?, findEntry]

end Run

/-! ### The two ways to write a number as a key -/

namespace Procedure

/-- An entry of an object literal whose key is a number makes the field that is called what stands
there in the source. The number in brackets selects the text of its value, so the two are the same
field exactly if this text is what stands there; they never are if the number is written with a
mark. -/
theorem numericKey_iff {source : String} {p : Procedure} (h : parse source = .ok p) {site : Site}
    {entries : List Property} {entry : Property}
    (hobject : .expr (.object site entries) ∈ p.phrases) (hentry : entry ∈ entries) :
    ∃ tokens names token, Token.ofSource source .initial = .ok (tokens, names) ∧
      (∀ place bits, .expr (.number place bits) ∈ p.phrases → ⟨.number bits, place.span⟩ ∈ tokens) ∧
      token ∈ tokens ∧ entry.span = token.span.merge entry.value.span ∧
      (∀ held m v m', Run.eval p.names held (.object site entries) m = .ok v m' →
        ∃ r fields, v = .node r ∧ m'.store.body r = .record none fields ∧
          fields.contains (p.nameText entry.key) ∧
          ∀ k, fields.contains k → ∃ other ∈ entries, p.nameText other.key = k) ∧
      ∀ bits, token.kind = .number bits →
        p.nameText entry.key = token.span.snippet source.toList ∧
        (Number.isMarked (token.span.snippet source.toList).toList →
          ∀ x, p.nameText entry.key ≠ Number.keyText x) ∧
        ((Float.ofBits bits).isFinite → ∀ place,
          p.Selects (.number place bits) (Number.keyText (Float.ofBits bits)) ∧
          (p.Selects (.number place bits) (p.nameText entry.key) ↔
            token.span.snippet source.toList = Number.keyText (Float.ofBits bits))) := by
  obtain ⟨tokens, names, hlex, -, -, hsaid⟩ := parse_said h
  -- The parser interns the slice of the token, whatever number it reads.
  obtain ⟨token, htoken, hspan, hname⟩ := hsaid _ hobject entry hentry
  refine ⟨tokens, names, token, hlex, fun place bits => hsaid _, htoken, hspan,
    fun held m v m' hrun => ?_, fun bits hbits => ?_⟩
  · obtain ⟨r, fields, hv, hbody, hfields⟩ := Run.eval_object_fields hrun
    exact ⟨r, fields, hv, hbody, (hfields _).mpr ⟨entry, hentry, rfl⟩, fun k => (hfields k).mp⟩
  · rw [Token.Names, hbits] at hname
    have htext : p.nameText entry.key = token.span.snippet source.toList := hname.lookup
    refine ⟨htext, fun hmarked x heq => ?_, fun hfinite place => ?_⟩
    · rw [← htext, heq] at hmarked
      exact Number.not_isMarked_keyText x hmarked
    · have hselects := p.selects_number place hfinite
      refine ⟨hselects, fun hselected => ?_, fun hcanonical => ?_⟩
      · rw [← htext]
        exact hselected.unique hselects
      · rw [htext, hcanonical]
        exact hselects

def literalEntries (p : Procedure) : List (String × Span × Span) :=
  p.phrases.flatMap fun
    | .expr (.object _ entries) =>
      entries.map fun entry => (p.nameText entry.key, entry.span, entry.value.span)
    | _ => []

theorem exists_of_mem_literalEntries {p : Procedure} {text : String} {span inner : Span}
    (h : (text, span, inner) ∈ p.literalEntries) :
    ∃ site entries entry, .expr (.object site entries) ∈ p.phrases ∧ entry ∈ entries ∧
      p.nameText entry.key = text ∧ entry.span = span ∧ entry.value.span = inner := by
  obtain ⟨q, hq, h⟩ := List.mem_flatMap.mp h
  split at h
  · rename_i site entries
    obtain ⟨entry, hentry, heq⟩ := List.mem_map.mp h
    cases heq
    exact ⟨site, entries, entry, hq, hentry, rfl, rfl, rfl⟩
  · cases h

/-- A procedure that makes two fields with numbers and reads the first of them. -/
def numbered : String := "s => \x7b let o = \x7b 1.0: 'a', 16: 'b' \x7d; s.r = o[1.0] \x7d"

theorem numbered_parses : (parse numbered).toOption.isSome := by decide +kernel

theorem numericKey_iff_numbered :
    ∃ site entries entry, .expr (.object site entries) ∈ (ofText numbered numbered_parses).phrases ∧
      entry ∈ entries ∧ (ofText numbered numbered_parses).nameText entry.key = "16" ∧
      ∀ place, (ofText numbered numbered_parses).Selects (.number place 0x4030000000000000)
        ((ofText numbered numbered_parses).nameText entry.key) := by
  have hmem : ("16", ⟨27, 34⟩, ⟨31, 34⟩) ∈ (ofText numbered numbered_parses).literalEntries := by
    decide +kernel
  obtain ⟨site, entries, entry, hobject, hentry, htext, hspan, hinner⟩ :=
    exists_of_mem_literalEntries hmem
  obtain ⟨tokens, names, token, hlex, -, htoken, hmerge, -, hnumber⟩ :=
    numericKey_iff (parse_ofText numbered_parses) hobject hentry
  rw [hspan, hinner] at hmerge
  have htokens : ∀ read ∈ (Token.ofSource numbered .initial).toOption, ∀ t ∈ read.1,
      ⟨27, 34⟩ = t.span.merge ⟨31, 34⟩ → t.kind = .number 0x4030000000000000 := by decide +kernel
  have hkind := htokens (tokens, names) (by rw [hlex]; rfl) token htoken hmerge
  have hfinite : (Float.ofBits 0x4030000000000000).isFinite := by decide +kernel
  have hcanonical : Number.keyText (Float.ofBits 0x4030000000000000) = "16" := by decide +kernel
  obtain ⟨hsnippet, -, hselects⟩ := hnumber _ hkind
  refine ⟨site, entries, entry, hobject, hentry, htext, fun place => ?_⟩
  exact (hselects hfinite place).2.mpr (by rw [← hsnippet, htext, hcanonical])

/-- The number `1.0` before a colon and the number `1.0` in brackets are two fields, and the one that
the procedure reads is not there. -/
theorem numericKey_splits :
    ∃ site entries entry, .expr (.object site entries) ∈ (ofText numbered numbered_parses).phrases ∧
      entry ∈ entries ∧ entry.span = Span.merge ⟨17, 20⟩ entry.value.span ∧
      (∃ read ∈ (Token.ofSource numbered .initial).toOption,
        ⟨.number 0x3FF0000000000000, ⟨17, 20⟩⟩ ∈ read.1) ∧
      (Float.ofBits 0x3FF0000000000000).isFinite ∧
      (∀ place, ¬ (ofText numbered numbered_parses).Selects (.number place 0x3FF0000000000000)
        ((ofText numbered numbered_parses).nameText entry.key)) ∧
      let st := ((ofText numbered numbered_parses).run [] [] (.node ⟨0⟩) none
        ⟨#[⟨false, .record none .empty⟩]⟩).2
      st.kind (st.property (.node ⟨0⟩) "r") = .undefined := by
  obtain ⟨hmem, hread, hmissing⟩ :
      ("1.0", ⟨17, 25⟩, ⟨22, 25⟩) ∈ (ofText numbered numbered_parses).literalEntries ∧
        (∃ read ∈ (Token.ofSource numbered .initial).toOption,
          ⟨.number 0x3FF0000000000000, ⟨17, 20⟩⟩ ∈ read.1) ∧
        let st := ((ofText numbered numbered_parses).run [] [] (.node ⟨0⟩) none
          ⟨#[⟨false, .record none .empty⟩]⟩).2
        st.kind (st.property (.node ⟨0⟩) "r") = .undefined := by
    decide +kernel
  obtain ⟨site, entries, entry, hobject, hentry, htext, hspan, hinner⟩ :=
    exists_of_mem_literalEntries hmem
  have hfinite : (Float.ofBits 0x3FF0000000000000).isFinite := by decide +kernel
  have hcanonical : Number.keyText (Float.ofBits 0x3FF0000000000000) = "1" := by decide +kernel
  refine ⟨site, entries, entry, hobject, hentry, ?_, hread, hfinite, fun place h => ?_, hmissing⟩
  · rw [hspan, hinner]
    decide
  · have hkey := h.unique (selects_number _ place hfinite)
    rw [htext, hcanonical] at hkey
    exact absurd hkey (by decide)

end Procedure

end PathCopy
