import PathCopy.Proofs.Faults
import PathCopy.Update.Report

/-!
Where a report says that an error is. The place of an error is counted in bytes and a report counts
characters, so a report names the line and the column of the error only if the text before it is
made of characters of one byte.
-/

namespace PathCopy

/-! ### Positions -/

/-- A place in a text: the number of its line and that of the character it stands before in the
line, both from one. -/
structure Position where
  line : ℕ
  column : ℕ
  deriving DecidableEq

namespace Position

variable {p : Position} {before after : List Char} {c : Char}

/-- The place behind a character, where `after` is the text from there on. A carriage return does
not end a line if a line feed follows. The lines are those of the report, which end at other
characters too; the lexer ends a line comment at a line feed only. -/
def step (p : Position) (c : Char) (after : List Char) : Position :=
  if endsLine c ∧ ¬ (c = '\r' ∧ after.head? = some '\n') then ⟨p.line + 1, 1⟩
  else ⟨p.line, p.column + 1⟩

def behind (p : Position) : List Char → List Char → Position
  | [], _ => p
  | c :: before, after => (p.step c (before ++ after)).behind before after

def between (before after : List Char) : Position := behind ⟨1, 1⟩ before after

end Position

/-! ### Lines -/

/-- The line that holds the place behind the first `n` characters, and how many characters of the
line stand before it; the place at the end belongs to the last line. -/
def locate : List (List Char) → ℕ → ℕ × ℕ
  | [], n => (0, n)
  | l :: ls, n =>
    if n < l.length ∨ ls = [] then (0, n)
    else ((locate ls (n - l.length)).1 + 1, (locate ls (n - l.length)).2)

theorem locate_injective (ls : List (List Char)) : Function.Injective (locate ls) := by
  induction ls with
  | nil => exact fun m n h => (Prod.mk.inj h).2
  | cons l ls ih =>
      intro m n h
      rw [locate, locate] at h
      split at h <;> split at h
      · exact (Prod.mk.inj h).2
      · simp at h
      · simp at h
      · next hm hn =>
        obtain ⟨hfirst, hsecond⟩ := Prod.mk.inj h
        have heq := ih (Prod.ext (Nat.succ_injective hfirst) hsecond)
        simp only [not_or, not_lt] at hm hn
        omega

theorem flatten_splitLines (text : List Char) : (splitLines text).flatten = text := by
  fun_induction splitLines text with
  | case1 => rfl
  | case2 cs ih => simp [ih]
  | case3 c cs _ hends ih => simp [ih]
  | case4 c cs _ hends hnil ih => simp_all
  | case5 c cs _ hends line lines hcons ih => simp_all

theorem eq_nil_of_splitLines {text : List Char} (h : splitLines text = []) : text = [] := by
  rw [← flatten_splitLines text, h, List.flatten_nil]

theorem ne_nil_of_mem_splitLines {text l : List Char} (h : l ∈ splitLines text) : l ≠ [] := by
  fun_induction splitLines text with
  | case1 => cases h
  | case2 cs ih | case3 c cs _ hends ih =>
      rcases List.mem_cons.mp h with rfl | h
      · exact List.cons_ne_nil _ _
      · exact ih h
  | case4 c cs _ hends hnil ih => simp_all
  | case5 c cs _ hends line lines hcons ih =>
      rcases List.mem_cons.mp h with rfl | h
      · exact List.cons_ne_nil _ _
      · exact ih (hcons ▸ List.mem_cons_of_mem _ h)

theorem le_offset_of_mem {ls : List (List Char)} {i o : ℕ} {l : Line}
    (h : l ∈ numberLines i o ls) : o ≤ l.offset := by
  induction ls generalizing i o with
  | nil => cases h
  | cons m ls ih =>
      rcases List.mem_cons.mp h with rfl | h
      · exact le_rfl
      · exact Nat.le_of_add_right_le (ih h)

/-- Of the lines that begin at a place or before it the last one holds it, if the text reaches that
far. -/
theorem getLast?_numberLines {ls : List (List Char)} (hls : ls ≠ []) (i o n : ℕ) :
    ∃ l, ((numberLines i o ls).filter fun l => l.offset ≤ o + n).getLast? = some l ∧
      l.index = i + (locate ls n).1 ∧ l.offset + (locate ls n).2 = o + n ∧
      (o + n ≤ l.stop ↔ n ≤ ls.flatten.length) := by
  induction ls generalizing i o n with
  | nil => exact absurd rfl hls
  | cons m ls ih =>
      have hfirst : ((numberLines i o (m :: ls)).filter fun l => l.offset ≤ o + n) =
          ⟨i, o, m⟩ :: (numberLines (i + 1) (o + m.length) ls).filter fun l => l.offset ≤ o + n :=
        List.filter_cons_of_pos (decide_eq_true (Nat.le_add_right o n))
      rw [hfirst, locate]
      split
      · next h =>
        have hrest : ((numberLines (i + 1) (o + m.length) ls).filter
            fun l => l.offset ≤ o + n) = [] := by
          rw [List.filter_eq_nil_iff]
          intro l hl
          rcases h with h | rfl
          · have hoffset := le_offset_of_mem hl
            simp only [decide_eq_true_eq]
            omega
          · cases hl
        rw [hrest]
        refine ⟨⟨i, o, m⟩, rfl, rfl, rfl, ?_⟩
        simp only [Line.stop, List.flatten_cons, List.length_append]
        rcases h with h | rfl
        · omega
        · simp
      · next h =>
        simp only [not_or, not_lt] at h
        obtain ⟨l, hlast, hindex, hoffset, hstop⟩ :=
          ih h.2 (i + 1) (o + m.length) (n - m.length)
        have hsum : o + m.length + (n - m.length) = o + n := by omega
        rw [hsum] at hlast hoffset hstop
        refine ⟨l, ?_, by omega, hoffset, ?_⟩
        · rw [List.getLast?_cons, hlast]
          rfl
        · rw [hstop, List.flatten_cons, List.length_append]
          omega

/-- The line of an offset is the one that holds it, if the text reaches that far. -/
theorem lineAt?_linesOf (text : List Char) (n : ℕ) :
    ∃ l, lineAt? (linesOf text) n = (if n ≤ text.length then some l else none) ∧
      l.index = (locate (splitLines text) n).1 ∧
      l.offset + (locate (splitLines text) n).2 = n := by
  rw [linesOf]
  cases text with
  | nil =>
      refine ⟨⟨0, 0, []⟩, ?_, rfl, Nat.zero_add n⟩
      rw [if_pos List.isEmpty_nil, lineAt?]
      simp [Line.stop]
  | cons c cs =>
      have hlines : splitLines (c :: cs) ≠ [] := fun hnil => by
        cases eq_nil_of_splitLines hnil
      obtain ⟨l, hlast, hindex, hoffset, hstop⟩ := getLast?_numberLines hlines 0 0 n
      simp only [flatten_splitLines, Nat.zero_add] at hlast hindex hoffset hstop
      refine ⟨l, ?_, hindex, hoffset⟩
      rw [if_neg (by simp), lineAt?, hlast]
      simp only [hstop]

/-- The place behind some characters, when counting goes on from a place: so many lines further, or
so many characters in the same line. -/
def Position.past (p : Position) (r : ℕ × ℕ) : Position :=
  if r.1 = 0 then ⟨p.line, p.column + r.2⟩ else ⟨p.line + r.1, r.2 + 1⟩

theorem Position.past_line (p : Position) (r : ℕ × ℕ) :
    (⟨p.line + 1, 1⟩ : Position).past r = p.past (r.1 + 1, r.2) := by
  rw [past, past, if_neg (Nat.succ_ne_zero r.1)]
  split
  · next h => rw [h, Nat.add_comm 1]
  · rw [Nat.add_assoc, Nat.add_comm 1]

/-- The text does not end between the two parts with a line that is ended, so that the place between
them is in a line. -/
def InLine (before after : List Char) : Prop :=
  after = [] → ∀ c ∈ before.getLast?, endsLine c = false

theorem InLine.tail {c : Char} {before after : List Char} (h : InLine (c :: before) after) :
    InLine before after := by
  intro hafter d hd
  refine h hafter d ?_
  rw [List.getLast?_cons, Option.mem_some_iff, Option.mem_def.mp hd]
  rfl

theorem InLine.splitLines_ne_nil {c : Char} {before after : List Char}
    (h : InLine (c :: before) after) (hc : endsLine c = true) :
    splitLines (before ++ after) ≠ [] := by
  intro hnil
  obtain ⟨rfl, rfl⟩ := List.append_eq_nil_iff.mp (eq_nil_of_splitLines hnil)
  simpa [hc] using h rfl

theorem Position.past_start (p : Position) (text : List Char) :
    p = p.past (locate (splitLines text) 0) := by
  have hzero : locate (splitLines text) 0 = (0, 0) := by
    cases h : splitLines text with
    | nil => rfl
    | cons l ls =>
        have hne := ne_nil_of_mem_splitLines (h ▸ List.mem_cons_self : l ∈ splitLines text)
        rw [locate, if_pos (.inl (List.length_pos_of_ne_nil hne))]
  rw [hzero]
  rfl

theorem locate_line {ls : List (List Char)} (h : ls ≠ []) (l : List Char) (n : ℕ) :
    locate (l :: ls) (n + l.length) = ((locate ls n).1 + 1, (locate ls n).2) := by
  rw [locate, if_neg (by simp [h]), Nat.add_sub_cancel]

/-- A character more at the start of a text puts a place behind it in the same line one further. -/
theorem Position.past_cons (p : Position) (c : Char) (l : List Char) (ls : List (List Char))
    (n : ℕ) : p.past (locate ((c :: l) :: ls) (n + 1)) =
      (⟨p.line, p.column + 1⟩ : Position).past (locate (l :: ls) n) := by
  rw [locate, locate, List.length_cons, Nat.add_sub_add_right]
  simp only [Nat.add_lt_add_iff_right]
  split
  · rw [past, past, if_pos rfl, if_pos rfl, Nat.add_right_comm, Nat.add_assoc]
  · rw [past, past, if_neg (Nat.succ_ne_zero _), if_neg (Nat.succ_ne_zero _)]

/-- A place is in the line that the text is split into, and behind as many of its characters; only
the place behind a line that is ended, where no further one begins, is in no line. -/
theorem Position.behind_eq_past (p : Position) {before after : List Char}
    (h : InLine before after) :
    p.behind before after = p.past (locate (splitLines (before ++ after)) before.length) := by
  generalize htext : before ++ after = text
  -- The induction is on the lines of the text, the cases on how much of the first one is passed.
  induction text using splitLines.induct generalizing before p with
  | case1 =>
      obtain ⟨rfl, rfl⟩ := List.append_eq_nil_iff.mp htext
      rfl
  | case2 cs ih =>
      rcases before with _ | ⟨c, _ | ⟨d, before⟩⟩
      · exact p.past_start _
      · -- Between the carriage return and the line feed the line goes on.
        obtain rfl : after = '\n' :: cs := (List.cons.inj htext).2
        obtain rfl : c = '\r' := (List.cons.inj htext).1
        rfl
      · obtain ⟨rfl, hfeed⟩ := List.cons.inj htext
        obtain ⟨rfl, rfl⟩ := List.cons.inj hfeed
        have hrest := h.tail.splitLines_ne_nil (by decide)
        rw [splitLines]
        exact (ih _ h.tail.tail rfl).trans ((p.past_line _).trans
          (congrArg p.past (locate_line hrest ['\r', '\n'] before.length).symm))
  | case3 c cs hcrlf hends ih =>
      rcases before with _ | ⟨c, before⟩
      · exact p.past_start _
      · obtain ⟨rfl, rfl⟩ := List.cons.inj htext
        have hstep : p.step c (before ++ after) = ⟨p.line + 1, 1⟩ := by
          refine if_pos ⟨hends, fun ⟨hc, hhead⟩ => ?_⟩
          obtain ⟨cs, hcs⟩ := List.head?_eq_some_iff.mp hhead
          exact hcrlf cs hc hcs
        rw [behind, hstep, ih _ h.tail rfl, past_line, splitLines, if_pos hends]
        · exact congrArg p.past (locate_line (h.splitLines_ne_nil hends) [c] before.length).symm
        · exact hcrlf
  | case4 c cs hcrlf hends hnil ih =>
      rcases before with _ | ⟨c, before⟩
      · exact p.past_start _
      · obtain ⟨rfl, rfl⟩ := List.cons.inj htext
        obtain ⟨rfl, rfl⟩ := List.append_eq_nil_iff.mp (eq_nil_of_splitLines hnil)
        have hstep : p.step c [] = ⟨p.line, p.column + 1⟩ := if_neg fun hc => hends hc.1
        rw [splitLines, if_neg hends]
        · exact hstep
        · exact hcrlf
  | case5 c cs hcrlf hends line lines hcons ih =>
      rcases before with _ | ⟨c, before⟩
      · exact p.past_start _
      · obtain ⟨rfl, rfl⟩ := List.cons.inj htext
        have hstep : p.step c (before ++ after) = ⟨p.line, p.column + 1⟩ :=
          if_neg fun hc => hends hc.1
        rw [behind, hstep, ih _ h.tail rfl, splitLines, if_neg hends, hcons]
        · exact (p.past_cons c line lines before.length).symm
        · exact hcrlf

theorem Position.behind_append (p : Position) (before inner after : List Char) :
    p.behind (before ++ inner) after = (p.behind before (inner ++ after)).behind inner after := by
  induction before generalizing p with
  | nil => rfl
  | cons c before ih =>
      rw [List.cons_append, behind, behind, ih, List.append_assoc]

/-- At the end of a text at least one character of the last line is behind. -/
theorem locate_end {ls : List (List Char)} (hne : ∀ l ∈ ls, l ≠ []) (hls : ls ≠ []) :
    0 < (locate ls ls.flatten.length).2 := by
  induction ls with
  | nil => exact absurd rfl hls
  | cons l ls ih =>
      have hl := List.length_pos_of_ne_nil (hne l List.mem_cons_self)
      rw [List.flatten_cons, List.length_append, Nat.add_comm]
      by_cases hnil : ls = []
      · rw [locate, if_pos (.inr hnil)]
        exact Nat.add_pos_right _ hl
      · rw [locate_line hnil]
        exact ih (fun m hm => hne m (List.mem_cons_of_mem _ hm)) hnil

/-- Where the lines of a text place the end of a part of it is where counting leads to, but for the
end of a text whose last line is ended. -/
theorem Position.between_eq_iff {before after : List Char} {r : ℕ × ℕ}
    (hr : locate (splitLines (before ++ after)) before.length = r) :
    between before after = ⟨r.1 + 1, r.2 + 1⟩ ↔ InLine before after := by
  constructor
  · rintro h rfl c hc
    obtain ⟨cs, rfl⟩ := List.getLast?_eq_some_iff.mp (Option.mem_def.mp hc)
    by_contra hends
    have hstart : (between (cs ++ [c]) []).column = 1 := by
      rw [between, behind_append]
      exact congrArg column (if_pos ⟨by simpa using hends, by simp⟩)
    have hcolumn := locate_end (fun l => ne_nil_of_mem_splitLines)
      (fun hnil => by simpa using eq_nil_of_splitLines hnil : splitLines (cs ++ [c]) ≠ [])
    rw [List.append_nil] at hr
    rw [flatten_splitLines, hr] at hcolumn
    rw [h] at hstart
    exact absurd (Nat.succ_injective hstart) hcolumn.ne'
  · intro h
    rw [between, behind_eq_past _ h, hr, past]
    split
    · next hfirst => rw [hfirst, Nat.add_comm 1]
    · rw [Nat.add_comm 1]

/-! ### Headings -/

namespace Report

/-- The line above the source, which names a place, behind a margin. -/
def heading (margin : ℕ) (p : Position) : List Char :=
  blanks margin ++ ['╭', '─', '[', ' '] ++
    (sourceName ++ ":" ++ toString p.line ++ ":" ++ toString p.column).toList ++ [' ', ']']

theorem toList_toString (n : ℕ) : (toString n).toList = Nat.toDigits 10 n := by
  rw [Nat.toString_eq_repr, Nat.toList_repr]

/-- A list is cut in one way before the first occurrence of an element. -/
theorem cut_inj {a : Char} {xs ys zs ws : List Char} (hx : a ∉ xs) (hy : a ∉ ys)
    (h : xs ++ a :: zs = ys ++ a :: ws) : xs = ys ∧ zs = ws := by
  have hindex := congrArg (List.idxOf a) h
  rw [List.idxOf_append_of_notMem hx, List.idxOf_append_of_notMem hy, List.idxOf_cons_self,
    List.idxOf_cons_self] at hindex
  obtain ⟨hcut, hrest⟩ := List.append_inj h hindex
  exact ⟨hcut, List.tail_eq_of_cons_eq hrest⟩

/-- A number is read off its digits where no digit follows. -/
theorem digits_inj {m n : ℕ} {c : Char} {xs ys : List Char} (hc : c.isDigit = false)
    (h : (toString m).toList ++ c :: xs = (toString n).toList ++ c :: ys) : m = n ∧ xs = ys := by
  have hnot : ∀ k : ℕ, c ∉ (toString k).toList := by
    intro k hmem
    rw [toList_toString] at hmem
    simp [Nat.isDigit_of_mem_toDigits (by decide) (by decide) hmem] at hc
  obtain ⟨hdigits, hrest⟩ := cut_inj (hnot m) (hnot n) h
  rw [toList_toString, toList_toString] at hdigits
  have hvalue := congrArg (Nat.ofDigitChars 10 · 0) hdigits
  simp only [Nat.ofDigitChars_ten_toDigits] at hvalue
  exact ⟨hvalue, hrest⟩

theorem heading_inj {margin margin' : ℕ} {p p' : Position} {rest rest' : List Char}
    (h : heading margin p ++ '\n' :: rest = heading margin' p' ++ '\n' :: rest') : p = p' := by
  have hcorner : ∀ n, '╭' ∉ blanks n := fun n hmem =>
    absurd (List.eq_of_mem_replicate hmem) (by decide)
  simp only [heading, String.toList_append, List.append_assoc, List.cons_append,
    List.nil_append] at h
  have hframe := (cut_inj (hcorner margin) (hcorner margin') h).2
  have hname := List.append_cancel_left (List.cons.inj (List.cons.inj (List.cons.inj hframe).2).2).2
  have hnumbers := List.append_cancel_left hname
  obtain ⟨hline, hcolumn⟩ := digits_inj (by decide) hnumbers
  obtain ⟨hcolumn, -⟩ := digits_inj (by decide) hcolumn
  cases p
  cases p'
  exact congrArg₂ Position.mk hline hcolumn

/-- The place that a report names for a label, if it shows the source. -/
def place? (source : List Char) (start stop : ℕ) : Option Position :=
  match lineAt? (linesOf source) start,
    lineAt? (linesOf source) (if start < stop then stop - 1 else start) with
  | some l, some _ => some ⟨l.index + 1, start - l.offset + 1⟩
  | _, _ => none

theorem sourceRows_of_place {source : List Char} {start stop : ℕ} {p : Position}
    (label : List Char) (h : place? source start stop = some p) :
    ∃ margin rows, sourceRows source start stop label = heading margin p :: rows := by
  rw [place?] at h
  rw [sourceRows]
  cases hl : lineAt? (linesOf source) start with
  | none =>
      rw [hl] at h
      cases h
  | some l =>
      cases hk : lineAt? (linesOf source) (if start < stop then stop - 1 else start) with
      | none =>
          rw [hl, hk] at h
          cases h
      | some k =>
          rw [hl, hk] at h
          obtain rfl := Option.some.inj h
          exact ⟨_, _, rfl⟩

theorem sourceRows_of_place_none {source label : List Char} {start stop : ℕ}
    (h : place? source start stop = none) : sourceRows source start stop label = [] := by
  rw [place?] at h
  rw [sourceRows]
  cases hl : lineAt? (linesOf source) start with
  | none => rfl
  | some l =>
      cases hk : lineAt? (linesOf source) (if start < stop then stop - 1 else start) with
      | none => rfl
      | some k =>
          rw [hl, hk] at h
          cases h

end Report

/-- The report of the error begins with its message and with a heading that names the place. -/
def UpdateError.Locates (e : UpdateError) (source : String) (p : Position) : Prop :=
  ∃ margin rest, (e.report source).toList =
    ("Error: " ++ e.message).toList ++ ['\n'] ++ Report.heading margin p ++ ['\n'] ++ rest

/-- The source is shown if the label begins in it and reaches no more than one character behind it;
the place is that behind `start` characters. -/
theorem Report.place?_eq (source : List Char) (start stop : ℕ) :
    Report.place? source start stop =
      if start ≤ source.length ∧ stop ≤ source.length + 1 then
        some ⟨(locate (splitLines source) start).1 + 1, (locate (splitLines source) start).2 + 1⟩
      else none := by
  obtain ⟨l, hl, hindex, hoffset⟩ := lineAt?_linesOf source start
  obtain ⟨k, hk, -, -⟩ :=
    lineAt?_linesOf source (if start < stop then stop - 1 else start)
  have hcolumn : start - l.offset = (locate (splitLines source) start).2 := by omega
  rw [← hindex, ← hcolumn, place?, hl, hk]
  by_cases hstart : start ≤ source.length
  · have hlast : (if start < stop then stop - 1 else start) ≤ source.length ↔
        stop ≤ source.length + 1 := by
      split <;> omega
    by_cases hstop : stop ≤ source.length + 1 <;>
      simp only [hstart, hlast, hstop, and_self, and_false, if_true, if_false]
  · simp only [hstart, if_false, false_and]

theorem UpdateError.locates_iff_place {e : UpdateError} {source : String} {p : Position} {s : Span}
    (hspan : e.span? = some s) : e.Locates source p ↔
      Report.place? source.toList (min s.start (utf8Length source.toList))
        (min s.stop (utf8Length source.toList)) = some p := by
  have hreport : (e.report source).toList = ("Error: " ++ e.message).toList ++ ['\n'] ++
      ((Report.sourceRows source.toList (min s.start (utf8Length source.toList))
        (min s.stop (utf8Length source.toList)) e.label.toList).map (· ++ ['\n'])).flatten := by
    rw [report, String.toList_ofList, hspan]
    rfl
  rw [Locates, hreport]
  constructor
  · rintro ⟨margin, rest, h⟩
    simp only [List.append_assoc] at h
    have hrows := List.append_cancel_left (List.append_cancel_left h)
    cases hplace : Report.place? source.toList (min s.start (utf8Length source.toList))
        (min s.stop (utf8Length source.toList)) with
    | none =>
        rw [Report.sourceRows_of_place_none hplace] at hrows
        simp [Report.heading] at hrows
    | some p' =>
        obtain ⟨margin', rows, hsource⟩ :=
          Report.sourceRows_of_place e.label.toList hplace
        rw [hsource, List.map_cons, List.flatten_cons, List.append_assoc] at hrows
        exact congrArg some (Report.heading_inj hrows)
  · intro hplace
    obtain ⟨margin, rows, hsource⟩ := Report.sourceRows_of_place e.label.toList hplace
    refine ⟨margin, (rows.map (· ++ ['\n'])).flatten, ?_⟩
    rw [hsource, List.map_cons, List.flatten_cons]
    simp only [List.append_assoc]

theorem length_le_utf8Length (cs : List Char) : cs.length ≤ utf8Length cs := by
  induction cs with
  | nil => exact le_rfl
  | cons c cs ih =>
      have hsize := c.utf8Size_pos
      rw [utf8Length, List.length_cons]
      omega

/-- A text takes as many bytes as it has characters if each of them takes one. -/
theorem utf8Length_eq_length_iff {cs : List Char} :
    utf8Length cs = cs.length ↔ ∀ c ∈ cs, c.utf8Size = 1 := by
  induction cs with
  | nil => simp [utf8Length]
  | cons c cs ih =>
      have hsize := c.utf8Size_pos
      have hle := length_le_utf8Length cs
      rw [utf8Length, List.length_cons, List.forall_mem_cons, ← ih]
      omega

variable {e : UpdateError} {source : String} {s : Span} {before after : List Char}

/-- A report names the place of an error if the text before it is made of characters of one byte,
unless the place is behind a last line that is ended, or the error reaches too far for the report to
show the source; otherwise it names another place or none. -/
theorem UpdateError.locates_between_iff (hspan : e.span? = some s)
    (htext : source.toList = before ++ after) (hstart : utf8Length before = s.start) :
    e.Locates source (.between before after) ↔ (∀ c ∈ before, c.utf8Size = 1) ∧
      min s.stop (utf8Length source.toList) ≤ source.length + 1 ∧ InLine before after := by
  have hclamped : min s.start (utf8Length source.toList) = utf8Length before := by
    rw [← hstart, htext, utf8Length_append]
    omega
  have hlength : source.toList.length = source.length := String.length_toList
  have hle := length_le_utf8Length before
  rw [locates_iff_place hspan, hclamped, Report.place?_eq, hlength, ← utf8Length_eq_length_iff,
    Option.ite_none_right_eq_some, Option.some_inj, eq_comm]
  constructor
  · rintro ⟨⟨hwithin, hstop⟩, hplace⟩
    rw [htext] at hplace
    have hnarrow : utf8Length before = before.length := by
      by_cases hline : InLine before after
      · -- Two offsets at one place are one offset.
        rw [(Position.between_eq_iff rfl).mpr hline] at hplace
        obtain ⟨hfirst, hsecond⟩ := Position.mk.inj hplace
        exact (locate_injective _
          (Prod.ext (Nat.succ_injective hfirst) (Nat.succ_injective hsecond))).symm
      · have hafter : after = [] := not_not.mp fun hne => hline fun heq => absurd heq hne
        rw [← hlength, htext, hafter, List.append_nil] at hwithin
        exact hwithin.antisymm hle
    rw [hnarrow] at hplace
    exact ⟨hnarrow, hstop, (Position.between_eq_iff rfl).mp hplace⟩
  · rintro ⟨hnarrow, hstop, hline⟩
    refine ⟨⟨?_, hstop⟩, ?_⟩
    · rw [hnarrow, ← hlength, htext, List.length_append]
      exact Nat.le_add_right _ _
    · rw [hnarrow, htext]
      exact (Position.between_eq_iff rfl).mpr hline

/-- When a report names the right place, for every error that begins between two characters of the
text; and an update that fails produces no other errors. -/
theorem UpdateError.heading_right_iff (source : String) :
    (∀ (e : UpdateError) (s : Span) (before after : List Char), e.span? = some s →
      source.toList = before ++ after → utf8Length before = s.start →
        (e.Locates source (.between before after) ↔ (∀ c ∈ before, c.utf8Size = 1) ∧
          min s.stop (utf8Length source.toList) ≤ source.length + 1 ∧ InLine before after)) ∧
    (utf8Length source.toList < 2 ^ 32 →
      ∀ (u : Update) (root : Value) (held : List Value) (w w' : Workspace) (e : UpdateError)
        (s : Span), u.source = source → u.apply root held w = (.error e, w') →
          e.span? = some s → IsBoundary source.toList s.start) :=
  ⟨fun _ _ _ _ hspan htext hstart => locates_between_iff hspan htext hstart,
    fun hshort _ _ _ _ _ _ _ hu happly hspan =>
      (Update.apply_error_isSlice hshort hu happly _ hspan).opens⟩

def Update.adding (comment : String) : Update :=
  ⟨"s => \x7b /* " ++ comment ++ " */ s.a += 1 \x7d", none, [], .unset⟩

theorem UpdateError.heading_right_iff_adding : ∃ e w',
    (Update.adding "e").apply (.node ⟨0⟩) [] .bare = (.error e, w') ∧
      e.span? = some ⟨15, 23⟩ ∧ e.Locates (Update.adding "e").source ⟨1, 16⟩ := by
  have hfails : ((Update.adding "e").apply (.node ⟨0⟩) [] .bare).1.map (fun _ => ()) =
      .error (.analysis (.compoundAssignment .plusAssign ⟨15, 23⟩)) := by
    decide +kernel
  have hright := (heading_right_iff (Update.adding "e").source).1
    (.analysis (.compoundAssignment .plusAssign ⟨15, 23⟩)) ⟨15, 23⟩
    "s => \x7b /* e */ ".toList "s.a += 1 \x7d".toList rfl (by decide +kernel) (by decide +kernel)
  refine ⟨_, _, Prod.ext (except_map_error hfails) rfl, rfl, ?_⟩
  exact hright.mpr ⟨utf8Length_eq_length_iff.mp (by decide +kernel), by decide +kernel, nofun⟩

/-- A letter of two bytes before an error makes its report name the column behind. -/
theorem UpdateError.heading_wrong_adding : ∃ e w' before after,
    (Update.adding "é").apply (.node ⟨0⟩) [] .bare = (.error e, w') ∧
      (Update.adding "é").source.toList = before ++ after ∧
      e.span? = some ⟨utf8Length before, 24⟩ ∧
      Position.between before after = ⟨1, 16⟩ ∧
      ¬ e.Locates (Update.adding "é").source ⟨1, 16⟩ ∧
      e.Locates (Update.adding "é").source ⟨1, 17⟩ := by
  have hfails : ((Update.adding "é").apply (.node ⟨0⟩) [] .bare).1.map (fun _ => ()) =
      .error (.analysis (.compoundAssignment .plusAssign ⟨16, 24⟩)) := by
    decide +kernel
  refine ⟨_, _, "s => \x7b /* é */ ".toList, "s.a += 1 \x7d".toList,
    Prod.ext (except_map_error hfails) rfl, by decide +kernel, rfl, by decide +kernel, ?_, ?_⟩
  · rw [locates_iff_place rfl]
    decide +kernel
  · rw [locates_iff_place rfl]
    decide +kernel

end PathCopy
