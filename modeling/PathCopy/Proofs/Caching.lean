import PathCopy.Proofs.Plans
import Mathlib.Data.List.Dedup

/-!
A cache in use. Whatever a cache is asked, whether directly or by an update, what it answers about a
text is what the text compiles to. Its numbers count the requests for texts that compile: an entry
and a compilation for each text, and a hit for every further request.
-/

namespace PathCopy

def compiles (text : String) : Bool := (Compiled.ofSource 0 text).toOption.isSome

theorem compiles_of_ofSource {serial : ℕ} {text : String} {compiled : Compiled}
    (h : Compiled.ofSource serial text = .ok compiled) : compiles text = true := by
  rw [compiles, Compiled.ofSource_serial text serial, h]
  rfl

theorem not_compiles_of_ofSource {serial : ℕ} {text : String} {e : CompileError}
    (h : Compiled.ofSource serial text = .error e) : compiles text = false := by
  rw [compiles, Compiled.ofSource_serial text serial, h]
  rfl

namespace PathCache

/-! ### Compiling one text -/

/-- A text is found; or it is refused, and the cache stays as it is; or it is compiled and kept. -/
theorem compile_cases (c : PathCache) (text : String) :
    (∃ e, c.entries.get? text = some e ∧ c.compile text = (.ok e, { c with hits := c.hits + 1 })) ∨
    (∃ error, compiles text = false ∧ c.compile text = (.error error, c)) ∨
    ∃ e cache, c.entries.get? text = none ∧ e.serial = c.compilations ∧ compiles text = true ∧
      c.compile text = (.ok e, cache) ∧ cache.entries = c.entries.insert text e ∧
      cache.compilations = c.compilations + 1 ∧ cache.hits = c.hits := by
  unfold compile
  split
  · rename_i e hentry
    exact .inl ⟨e, hentry, rfl⟩
  · rename_i hentry
    split
    · rename_i error hsource
      exact .inr (.inl ⟨error, not_compiles_of_ofSource hsource, rfl⟩)
    · rename_i e hsource
      exact .inr (.inr ⟨e, _, hentry, Compiled.serial_of_ofSource hsource,
        compiles_of_ofSource hsource, rfl, rfl, rfl, rfl⟩)

variable {c : PathCache} {text text' : String} {texts : List String} {e e' : Compiled}

theorem ofSource_compile (c : PathCache) (text : String) :
    ∃ serial, (c.compile text).1 = Compiled.ofSource serial text := by
  rcases hcompile : c.compile text with ⟨outcome, cache⟩
  cases outcome with
  | ok e => exact ⟨e.serial, (ofSource_of_compile hcompile).symm⟩
  | error error =>
      obtain ⟨serial, hsource⟩ := ofSource_of_compile_error hcompile
      exact ⟨serial, hsource.symm⟩

theorem get?_compile_of_get? (h : c.entries.get? text = some e) (text' : String) :
    (c.compile text').2.entries.get? text = some e := by
  obtain ⟨e', -, hcompile⟩ | ⟨error, -, hcompile⟩ |
    ⟨e', cache, hnone, -, -, hcompile, hentries, -⟩ := c.compile_cases text'
  · rw [hcompile]
    exact h
  · rw [hcompile]
    exact h
  · have hne : text ≠ text' := by
      rintro rfl
      rw [h] at hnone
      cases hnone
    rw [hcompile, hentries, Table.get?_insert, if_neg hne]
    exact h

theorem get?_compile (h : (c.compile text).1 = .ok e) :
    (c.compile text).2.entries.get? text = some e := by
  obtain ⟨e', hentry, hcompile⟩ | ⟨error, -, hcompile⟩ |
    ⟨e', cache, -, -, -, hcompile, hentries, -⟩ := c.compile_cases text
  · rw [hcompile] at h ⊢
    cases h
    exact hentry
  · rw [hcompile] at h
    cases h
  · rw [hcompile] at h ⊢
    cases h
    rw [hentries, Table.get?_insert, if_pos rfl]

/-! ### Calls -/

/-- What a cache can be asked. An update runs with settings and a store of its own. -/
inductive Call
  | compile (text : String)
  | writePaths (text : String)
  | contains (text : String)
  | size
  | stats
  | update (update : Update) (root : Value) (held : List Value) (settings : Settings)
      (store : Store)

inductive Answer
  | compiled (outcome : Except CompileError Compiled)
  | writePaths (outcome : Except CompileError (List WritePath))
  | contains (found : Bool)
  | size (entries : Nat)
  | stats (stats : CacheStats)
  | updated (outcome : Except UpdateError Value) (settings : Settings) (store : Store)

def perform (c : PathCache) : Call → Answer × PathCache
  | .compile text => (.compiled (c.compile text).1, (c.compile text).2)
  | .writePaths text => (.writePaths (c.writePaths text).1, (c.writePaths text).2)
  | .contains text => (.contains (c.contains text), c)
  | .size => (.size c.size, c)
  | .stats => (.stats c.stats, c)
  | .update u root held settings store =>
    let (outcome, w) := u.apply root held ⟨settings, c, store⟩
    (.updated outcome w.settings w.store, w.cache)

def performAll (c : PathCache) (calls : List Call) : PathCache :=
  calls.foldl (fun c call => (c.perform call).2) c

/-- The text that a call has compiled, whether it compiles or not. -/
def Call.text? : Call → Option String
  | .compile text => some text
  | .writePaths text => some text
  | .update u _ _ _ _ => some u.source
  | .contains _ | .size | .stats => none

def Call.request? (call : Call) : Option String := call.text?.filter compiles

/-- The texts that were compiled with success, once for each call. -/
def requests (calls : List Call) : List String := calls.filterMap Call.request?

theorem perform_cache (c : PathCache) (call : Call) :
    (c.perform call).2 = (call.text?.map fun text => (c.compile text).2).getD c := by
  cases call with
  | update u root held settings store => exact u.cache_apply root held ⟨settings, c, store⟩
  | compile | writePaths | contains | size | stats => rfl

/-- A call whose text does not compile leaves the cache as it is, and so does one without a text. -/
theorem perform_cache_of_request?_none (c : PathCache) {call : Call} (h : call.request? = none) :
    (c.perform call).2 = c := by
  rw [perform_cache]
  rw [Call.request?] at h
  cases htext : call.text? with
  | none => rfl
  | some text =>
      rw [htext] at h
      have hfails : compiles text = false := by simpa using h
      obtain ⟨e, hentry, -⟩ | ⟨error, -, hcompile⟩ | ⟨e, cache, -, -, hcompiles, -⟩ :=
        c.compile_cases text
      · rw [compiles_of_ofSource (c.ofSource_eq text e hentry)] at hfails
        cases hfails
      · rw [Option.map_some, Option.getD_some, hcompile]
      · rw [hcompiles] at hfails
        cases hfails

theorem get?_perform_of_get? (h : c.entries.get? text = some e) (call : Call) :
    (c.perform call).2.entries.get? text = some e := by
  rw [perform_cache]
  cases call.text? with
  | none => exact h
  | some text' => exact get?_compile_of_get? h text'

theorem get?_performAll_of_get? (calls : List Call) (h : c.entries.get? text = some e) :
    (c.performAll calls).entries.get? text = some e := by
  induction calls generalizing c with
  | nil => exact h
  | cons call calls ih => exact ih (get?_perform_of_get? h call)

/-! ### The books of a cache -/

theorem length_dedup_concat_of_mem (h : text ∈ texts) :
    (texts ++ [text]).dedup.length = texts.dedup.length := by
  rw [(List.perm_append_singleton text texts).dedup.length_eq, List.dedup_cons_of_mem h]

theorem length_dedup_concat_of_not_mem (h : text ∉ texts) :
    (texts ++ [text]).dedup.length = texts.dedup.length + 1 := by
  rw [(List.perm_append_singleton text texts).dedup.length_eq, List.dedup_cons_of_notMem h,
    List.length_cons]

theorem length_putEntry {α : Type} {key : String} {a : α} {es : List (String × α)}
    (h : findEntry key es = none) : (putEntry key a es).length = es.length + 1 := by
  induction es with
  | nil => rfl
  | cons entry es ih =>
      rw [findEntry] at h
      split at h
      · cases h
      · rename_i hne
        rw [putEntry, if_neg hne, List.length_cons, ih h, List.length_cons]

/-- What a cache shows after the texts `texts` have been compiled with success: it has an entry and
has made a compilation for each of them, and counts a hit for every other time. -/
structure Accounted (texts : List String) (c : PathCache) : Prop where
  entries : c.size = texts.dedup.length
  compilations : c.compilations = texts.dedup.length
  hits : c.hits + texts.dedup.length = texts.length
  contains : ∀ text, c.contains text = true ↔ text ∈ texts

/-- Each entry has a number of its own, and the next number is none of them. -/
structure Books (texts : List String) (c : PathCache) : Prop extends Accounted texts c where
  serial_lt : ∀ text e, c.entries.get? text = some e → e.serial < c.compilations
  serial_inj : ∀ text e text' e', c.entries.get? text = some e → c.entries.get? text' = some e' →
    e.serial = e'.serial → text = text'

theorem contains_iff : c.contains text = true ↔ ∃ e, c.entries.get? text = some e := by
  rw [contains, Table.contains, Option.isSome_iff_exists]

theorem books_empty : Books [] empty where
  entries := rfl
  compilations := rfl
  hits := rfl
  contains text := by simp [contains_iff, empty, Table.get?, Table.empty, findEntry]
  serial_lt _ _ h := nomatch h
  serial_inj _ _ _ _ h := nomatch h

theorem Books.hit (h : Books texts c) (hmem : text ∈ texts) :
    Books (texts ++ [text]) { c with hits := c.hits + 1 } := by
  refine ⟨⟨?_, ?_, ?_, fun text' => ?_⟩, h.serial_lt, h.serial_inj⟩
  · rw [length_dedup_concat_of_mem hmem]
    exact h.entries
  · rw [length_dedup_concat_of_mem hmem]
    exact h.compilations
  · have hhits := h.hits
    rw [length_dedup_concat_of_mem hmem, List.length_append, List.length_singleton]
    dsimp only
    omega
  · rw [List.mem_append, List.mem_singleton]
    refine (h.contains text').trans ⟨.inl, fun hmem' => hmem'.elim id ?_⟩
    rintro rfl
    exact hmem

theorem Books.keep (h : Books texts c) {cache : PathCache} (hnone : c.entries.get? text = none)
    (hserial : e.serial = c.compilations) (hentries : cache.entries = c.entries.insert text e)
    (hcompilations : cache.compilations = c.compilations + 1) (hhits : cache.hits = c.hits) :
    Books (texts ++ [text]) cache := by
  have hnew : text ∉ texts := by
    rw [← h.contains text, contains_iff, hnone]
    simp
  have hget : ∀ text', cache.entries.get? text' =
      if text' = text then some e else c.entries.get? text' := by
    intro text'
    rw [hentries, Table.get?_insert]
  refine ⟨⟨?_, ?_, ?_, fun text' => ?_⟩, fun text' e' h' => ?_, ?_⟩
  · rw [length_dedup_concat_of_not_mem hnew, ← h.entries, size, hentries]
    exact length_putEntry hnone
  · rw [length_dedup_concat_of_not_mem hnew, ← h.compilations, hcompilations]
  · have htotal := h.hits
    rw [length_dedup_concat_of_not_mem hnew, List.length_append, List.length_singleton, hhits]
    omega
  · rw [contains_iff, hget, List.mem_append, List.mem_singleton, ← h.contains text', contains_iff]
    split
    · rename_i heq
      exact ⟨fun _ => .inr heq, fun _ => ⟨e, rfl⟩⟩
    · rename_i hne
      exact ⟨.inl, fun hmem' => hmem'.resolve_right hne⟩
  · rw [hget] at h'
    rw [hcompilations]
    split at h'
    · cases h'
      omega
    · have hlt := h.serial_lt text' e' h'
      omega
  -- A new entry has a number that is larger than those of all others.
  · intro text₁ e₁ text₂ e₂ h₁ h₂ heq
    rw [hget] at h₁ h₂
    split at h₁
    · rename_i htext₁
      cases h₁
      split at h₂
      · rename_i htext₂
        rw [htext₁, htext₂]
      · have hlt := h.serial_lt text₂ e₂ h₂
        omega
    · split at h₂
      · cases h₂
        have hlt := h.serial_lt text₁ e₁ h₁
        omega
      · exact h.serial_inj text₁ e₁ text₂ e₂ h₁ h₂ heq

/-- Compiling a text enters it in the books if it compiles. -/
theorem Books.compile (h : Books texts c) (text : String) :
    Books (texts ++ ((some text).filter compiles).toList) (c.compile text).2 := by
  obtain ⟨e, hentry, hcompile⟩ | ⟨error, hfails, hcompile⟩ |
    ⟨e, cache, hnone, hserial, hcompiles, hcompile, hentries, hcompilations, hhits⟩ :=
    c.compile_cases text
  · have hcompiles := compiles_of_ofSource (c.ofSource_eq text e hentry)
    rw [hcompile, Option.filter_some_pos hcompiles]
    exact h.hit ((h.contains text).mp (contains_iff.mpr ⟨e, hentry⟩))
  · rw [hcompile, Option.filter_some_neg (by simp [hfails])]
    exact (List.append_nil texts).symm ▸ h
  · rw [hcompile, Option.filter_some_pos hcompiles]
    exact h.keep hnone hserial hentries hcompilations hhits

theorem Books.perform (h : Books texts c) (call : Call) :
    Books (texts ++ call.request?.toList) (c.perform call).2 := by
  rw [perform_cache, Call.request?]
  cases call.text? with
  | none =>
      rw [Option.filter_none]
      exact (List.append_nil texts).symm ▸ h
  | some text => exact h.compile text

theorem Books.performAll (h : Books texts c) (calls : List Call) :
    Books (texts ++ requests calls) (c.performAll calls) := by
  induction calls generalizing c texts with
  | nil => exact (List.append_nil texts).symm ▸ h
  | cons call calls ih =>
      have hrest := ih (h.perform call)
      have hrequests : requests (call :: calls) = call.request?.toList ++ requests calls := by
        rw [requests, List.filterMap_cons]
        cases call.request? <;> rfl
      rwa [hrequests, ← List.append_assoc]

theorem books_performAll (calls : List Call) :
    Books (requests calls) (empty.performAll calls) := by
  have h := books_empty.performAll calls
  rwa [List.nil_append] at h

/-! ### Answers -/

/-- The answer to a call after the texts `texts` have been compiled with success. What a text
compiles to is as without a cache, up to the number of the compilation; an update goes as with an
empty cache. -/
inductive Answered (texts : List String) : Call → Answer → Prop
  | compile (text : String) (serial : ℕ) :
      Answered texts (.compile text) (.compiled (Compiled.ofSource serial text))
  | writePaths (text : String) :
      Answered texts (.writePaths text)
        (.writePaths ((Compiled.ofSource 0 text).map Compiled.paths))
  | contains (text : String) : Answered texts (.contains text) (.contains (text ∈ texts))
  | size : Answered texts .size (.size texts.dedup.length)
  | stats : Answered texts .stats (.stats ⟨texts.dedup.length, texts.dedup.length,
      texts.length - texts.dedup.length⟩)
  | update (u : Update) (root : Value) (held : List Value) (settings : Settings) (store : Store) :
      Answered texts (.update u root held settings store)
        (empty.perform (.update u root held settings store)).1

theorem Books.answered (h : Books texts c) (call : Call) :
    Answered texts call (c.perform call).1 := by
  cases call with
  | compile text =>
      obtain ⟨serial, hsource⟩ := c.ofSource_compile text
      rw [PathCache.perform, hsource]
      exact .compile text serial
  | writePaths text =>
      obtain ⟨serial, hsource⟩ := c.ofSource_compile text
      have hpaths : (c.writePaths text).1 = (Compiled.ofSource 0 text).map Compiled.paths := by
        have hcompile : (c.writePaths text).1 = (c.compile text).1.map Compiled.paths := rfl
        rw [hcompile, hsource, Compiled.ofSource_serial text serial 0]
        cases Compiled.ofSource serial text <;> rfl
      rw [PathCache.perform, hpaths]
      exact .writePaths text
  | contains text =>
      have hcontains : c.contains text = decide (text ∈ texts) := by
        rw [Bool.eq_iff_iff, decide_eq_true_iff]
        exact h.contains text
      rw [PathCache.perform, hcontains]
      exact .contains text
  | size =>
      rw [PathCache.perform, h.entries]
      exact .size
  | stats =>
      have hhits : c.hits = texts.length - texts.dedup.length := by
        rw [← h.hits, Nat.add_sub_cancel]
      rw [PathCache.perform, stats, h.entries, h.compilations, hhits]
      exact .stats
  | update u root held settings store =>
      -- The plan of an update is the same whatever the cache holds.
      have hsame : (c.perform (.update u root held settings store)).1 =
          (empty.perform (.update u root held settings store)).1 := by
        simp only [PathCache.perform, Update.apply_eq_plan]
        cases u.plan store <;> rfl
      rw [hsame]
      exact .update u root held settings store

/-- A cache is transparent and keeps account. After any calls its numbers are those of the texts
that were compiled with success, directly or by an update, however the update ended. Every answer is
what these texts say. A call that compiles no text with success leaves the cache as it is. And a
text that was compiled once always gives the same object, and no other text does. -/
theorem accounted_throughout (calls : List Call) :
    (empty.performAll calls).Accounted (requests calls) ∧
    (∀ call, Answered (requests calls) call ((empty.performAll calls).perform call).1) ∧
    (∀ call, Call.request? call = none →
      ((empty.performAll calls).perform call).2 = empty.performAll calls) ∧
    ∀ call more text text' e e', Call.text? call = some text →
      ((empty.performAll calls).compile text).1 = .ok e →
      ((empty.performAll (calls ++ call :: more)).compile text').1 = .ok e' →
        (e'.serial = e.serial ↔ text' = text) ∧ (text' = text → e' = e) := by
  have hbooks := books_performAll calls
  refine ⟨hbooks.toAccounted, hbooks.answered, fun call => perform_cache_of_request?_none _, ?_⟩
  intro call more text text' e e' hcall he he'
  have hkept : ((empty.performAll calls).perform call).2.entries.get? text = some e := by
    rw [perform_cache, hcall]
    exact get?_compile he
  have hlater : (empty.performAll (calls ++ call :: more)).entries.get? text = some e := by
    rw [performAll, List.foldl_append]
    exact get?_performAll_of_get? more hkept
  have hbooks' := (books_performAll (calls ++ call :: more)).compile text'
  have hget := get?_compile_of_get? hlater text'
  have hget' := get?_compile he'
  constructor
  · constructor
    · exact hbooks'.serial_inj text' e' text e hget' hget
    · rintro rfl
      rw [hget] at hget'
      cases hget'
      rfl
  · rintro rfl
    rw [hget] at hget'
    cases hget'
    rfl

end PathCache

end PathCopy
