import PathCopy.Proofs.Invariants
import PathCopy.Proofs.Likeness
import PathCopy.Proofs.Renaming

/-!
Coupled runs. One procedure runs on two machines whose values at hand are paired. If the two agree
on what is read of paired values, and stay in correspondence through everything that changes a
machine, then so they do through the whole run, with paired results. A verdict says what the left
run may come to when the right one fails: anything at all, or only a failure of the same sort.
-/

namespace PathCopy

open Store

/-! ### Operators on values that are read alike -/

section Alike

variable {st st' : Store} {v w v' w' : Value}

theorem unary_eq (h : w.scalar? = v.scalar?) (hnumber : st'.toNumber w = st.toNumber v)
    (op : UnaryOp) : st'.unary op w = st.unary op v := by
  cases op with
  | neg => rw [unary, hnumber, unary]
  | not =>
      have htruthy : w.isTruthy = v.isTruthy := by
        cases v <;> cases w <;> cases h <;> rfl
      rw [unary, htruthy, unary]

theorem binary_eq (h : w.scalar? = v.scalar?) (h' : w'.scalar? = v'.scalar?)
    (hnumber : st'.toNumber w = st.toNumber v) (hnumber' : st'.toNumber w' = st.toNumber v')
    (htext : st'.joined w = st.joined v) (htext' : st'.joined w' = st.joined v') (op : BinaryOp) :
    st'.binary op w w' = st.binary op v v' := by
  cases op with
  | add =>
      cases v <;> cases w <;> cases h <;> cases v' <;> cases w' <;> cases h'
      case scalar.scalar.refl.scalar.scalar.refl a b => cases a <;> cases b <;> simp_all [binary]
      case scalar.scalar.refl.node.node.refl a r s => cases a <;> simp_all [binary]
      case node.node.refl.scalar.scalar.refl r s a => cases a <;> simp_all [binary]
      case node.node.refl.node.node.refl => simp_all [binary]
  | _ => simp [binary, hnumber, hnumber']

end Alike

namespace Run

variable {α β γ δ : Type} {names : NameTable} {span : Span}

def error? : EStateM.Result EvalError Machine α → Option EvalError
  | .ok _ _ => none
  | .error e _ => some e

/-- What the left run may come to, given the error of the right one: its own error, or none. -/
structure Verdict where
  admits : Option EvalError → EvalError → Prop
  same : ∀ e, admits (some e) e
  later : ∀ {e}, admits none e → ∀ o, admits o e

/-- From machines with `P`: if the right run ends well, then so does the left one, and the results
and the machines have `Q`; if the right run fails, the verdict admits what the left one does. -/
def Couples (V : Verdict) (P : Machine → Machine → Prop) (x : Run α) (y : Run β)
    (Q : α → β → Machine → Machine → Prop) : Prop :=
  ∀ b a, P b a → match y a with
    | .ok w a' => ∃ v b', x b = .ok v b' ∧ Q v w b' a'
    | .error e _ => V.admits (error? (x b)) e

section Rules

variable {V : Verdict} {P P' : Machine → Machine → Prop} {x : Run α} {y : Run β} {f : α → Run γ}
  {g : β → Run δ} {Q : α → β → Machine → Machine → Prop} {R : γ → δ → Machine → Machine → Prop}
  {a b a' : Machine}

theorem Couples.ok {w : β} (h : Couples V P x y Q) (hP : P b a) (hrun : y a = .ok w a') :
    ∃ v b', x b = .ok v b' ∧ Q v w b' a' := by
  have hboth := h b a hP
  rwa [hrun] at hboth

theorem Couples.error {e : EvalError} (h : Couples V P x y Q) (hP : P b a)
    (hrun : y a = .error e a') : V.admits (error? (x b)) e := by
  have hboth := h b a hP
  rwa [hrun] at hboth

theorem Couples.pure {v : α} {w : β} (h : ∀ b a, P b a → Q v w b a) :
    Couples V P (Pure.pure v) (Pure.pure w) Q :=
  fun b a hP => ⟨v, b, rfl, h b a hP⟩

theorem Couples.fail {fault fault' : EvalFault} {span' : Span}
    (h : V.admits (some ⟨fault, span⟩) ⟨fault', span'⟩) :
    Couples V P (Run.fail fault span : Run α) (Run.fail fault' span' : Run β) Q :=
  fun _ _ _ => h

theorem Couples.fail_same {fault : EvalFault} :
    Couples V P (Run.fail fault span : Run α) (Run.fail fault span : Run β) Q :=
  .fail (V.same _)

theorem Couples.bind (hx : Couples V P x y Q) (hf : ∀ v w, Couples V (Q v w) (f v) (g w) R) :
    Couples V P (x >>= f) (y >>= g) R := by
  intro b a hP
  rw [bind_apply, bind_apply]
  cases hy : y a with
  | ok w a₁ =>
      obtain ⟨v, b₁, hxb, hQ⟩ := hx.ok hP hy
      rw [hxb]
      exact hf v w b₁ a₁ hQ
  | error e a₁ =>
      have hadmits := hx.error hP hy
      dsimp only
      cases hxb : x b with
      | ok v b₁ =>
          rw [hxb] at hadmits
          exact V.later hadmits _
      | error e' b₁ => rwa [hxb] at hadmits

theorem Couples.look {f : Machine → Run γ} {g : Machine → Run δ}
    (h : ∀ b a, P b a → Couples V (fun b' a' => b' = b ∧ a' = a) (f b) (g a) R) :
    Couples V P (get >>= f) (get >>= g) R :=
  fun b a hP => h b a hP b a ⟨rfl, rfl⟩

theorem Couples.mono {Q' : α → β → Machine → Machine → Prop} (h : Couples V P x y Q)
    (hpre : ∀ b a, P' b a → P b a) (hpost : ∀ v w b a, Q v w b a → Q' v w b a) :
    Couples V P' x y Q' := by
  intro b a hP
  cases hy : y a with
  | ok w a₁ =>
      obtain ⟨v, b₁, hxb, hQ⟩ := h.ok (hpre b a hP) hy
      exact ⟨v, b₁, hxb, hpost v w b₁ a₁ hQ⟩
  | error e a₁ => exact h.error (hpre b a hP) hy

theorem Couples.pre (h : Couples V P x y Q) (hpre : ∀ b a, P' b a → P b a) : Couples V P' x y Q :=
  h.mono hpre fun _ _ _ _ => id

theorem Couples.post {Q' : α → β → Machine → Machine → Prop} (h : Couples V P x y Q)
    (hpost : ∀ v w b a, Q v w b a → Q' v w b a) : Couples V P x y Q' :=
  h.mono (fun _ _ => id) hpost

theorem Couples.bind_same {x y : Run α} {f : α → Run γ} {g : α → Run δ}
    (hx : Couples V P x y fun v w b a => v = w ∧ P' b a) (hf : ∀ v, Couples V P' (f v) (g v) R) :
    Couples V P (x >>= f) (y >>= g) R :=
  hx.bind fun v w b a hQ => by
    obtain ⟨rfl, hP'⟩ := hQ
    exact hf v b a hP'

theorem couples_key {v w : Value}
    (h : ∀ b a, P b a → w.scalar? = v.scalar? ∧ a.store.kind w = b.store.kind v) (span : Span) :
    Couples V P (Run.key v span) (Run.key w span) fun k l b a => k = l ∧ P b a := by
  intro b a hP
  obtain ⟨hscalar, hkind⟩ := h b a hP
  rw [Run.key.eq_def, Run.key.eq_def, key?_eq hscalar]
  cases v.key? with
  | some k => exact ⟨k, b, rfl, rfl, hP⟩
  | none =>
      show V.admits (some ⟨.invalidKey (b.store.kind v), span⟩) ⟨.invalidKey (a.store.kind w), span⟩
      rw [hkind]
      exact V.same _

end Rules

/-- When two machines correspond, with values at hand that are paired. Paired values read alike, and
the machines correspond again after each of the things that a run does to them. -/
structure Correspondence where
  verdict : Verdict
  Corr : List (Value × Value) → Machine → Machine → Prop
  subset : ∀ {ps qs b a}, Corr ps b a → qs ⊆ ps → Corr qs b a
  likeness : ∀ {ps b a}, Corr ps b a →
    b.store.Likeness a.store fun v w => Corr ((v, w) :: ps) b a
  joined : ∀ {ps b a v w}, Corr ps b a → (v, w) ∈ ps → a.store.joined w = b.store.joined v
  find : ∀ {ps b a}, Corr ps b a → ∀ name,
    Option.Rel (fun c d => d.assignable = c.assignable ∧ Corr ((c.value, d.value) :: ps) b a)
      (b.scopes.find? name) (a.scopes.find? name)
  list : ∀ {ps qs b a}, Corr (qs ++ ps) b a →
    Corr (((b.store.alloc (.list (qs.map Prod.fst))).1,
        (a.store.alloc (.list (qs.map Prod.snd))).1) :: ps)
      { b with store := (b.store.alloc (.list (qs.map Prod.fst))).2 }
      { a with store := (a.store.alloc (.list (qs.map Prod.snd))).2 }
  record : ∀ {ps b a} {t : Table (Value × Value)}, Corr (t.values ++ ps) b a →
    Corr (((b.store.alloc (.record none (t.map Prod.fst))).1,
        (a.store.alloc (.record none (t.map Prod.snd))).1) :: ps)
      { b with store := (b.store.alloc (.record none (t.map Prod.fst))).2 }
      { a with store := (a.store.alloc (.record none (t.map Prod.snd))).2 }
  define : ∀ {ps b a v w}, Corr ps b a → (v, w) ∈ ps → ∀ name assignable,
    Corr ps { b with scopes := b.scopes.define name ⟨v, assignable⟩ }
      { a with scopes := a.scopes.define name ⟨w, assignable⟩ }
  setValue : ∀ {ps b a v w}, Corr ps b a → (v, w) ∈ ps → ∀ name writes writes',
    Corr ps ⟨b.store, b.scopes.setValue name v, writes⟩
      ⟨a.store, a.scopes.setValue name w, writes'⟩
  enter : ∀ {ps b a}, Corr ps b a →
    Corr ps { b with scopes := [] :: b.scopes } { a with scopes := [] :: a.scopes }
  leave : ∀ {ps b a}, Corr ps b a →
    Corr ps { b with scopes := b.scopes.tail } { a with scopes := a.scopes.tail }

namespace Correspondence

variable (C : Correspondence) {ps qs : List (Value × Value)} {a b : Machine} {v w v' w' : Value}

theorem swap {p q : Value × Value} (h : C.Corr (p :: q :: ps) b a) : C.Corr (p :: ps) b a :=
  C.subset h (List.cons_subset_cons p (List.subset_cons_self q ps))

theorem tail {p : Value × Value} (h : C.Corr (p :: ps) b a) : C.Corr ps b a :=
  C.subset h (List.subset_cons_self p ps)

theorem again {p : Value × Value} (h : C.Corr ps b a) (hp : p ∈ ps) : C.Corr (p :: ps) b a :=
  C.subset h (List.cons_subset.mpr ⟨hp, List.Subset.refl ps⟩)

/-! ### Reading -/

theorem scalar (s : Scalar) (h : C.Corr ps b a) : C.Corr ((.scalar s, .scalar s) :: ps) b a :=
  (C.likeness h).refl s

theorem scalar? (h : C.Corr ps b a) (hmem : (v, w) ∈ ps) : w.scalar? = v.scalar? :=
  (C.likeness h).scalar? (C.again h hmem)

theorem kind (h : C.Corr ps b a) (hmem : (v, w) ∈ ps) : a.store.kind w = b.store.kind v :=
  (C.likeness h).kind (C.again h hmem)

theorem property (h : C.Corr ps b a) (hmem : (v, w) ∈ ps) (k : String) :
    C.Corr ((b.store.property v k, a.store.property w k) :: ps) b a :=
  (C.likeness h).property (C.again h hmem) k

theorem mapEntry (h : C.Corr ps b a) (hmem : (v, w) ∈ ps) (k : String) :
    C.Corr ((b.store.mapEntry v k, a.store.mapEntry w k) :: ps) b a :=
  (C.likeness h).mapEntry (C.again h hmem) k

theorem toNumber (h : C.Corr ps b a) (hmem : (v, w) ∈ ps) :
    a.store.toNumber w = b.store.toNumber v :=
  (C.likeness h).toNumber (C.again h hmem)

theorem lookup (names : NameTable) (name : Name) (span : Span) :
    Couples C.verdict (C.Corr ps) (Run.lookup names name span) (Run.lookup names name span)
      fun v w => C.Corr ((v, w) :: ps) := by
  refine .look fun b a h => ?_
  have hfind := C.find h name
  generalize b.scopes.find? name = found at hfind ⊢
  generalize a.scopes.find? name = found' at hfind ⊢
  cases hfind with
  | none => exact .fail_same
  | some hvalue =>
      refine .pure ?_
      rintro _ _ ⟨rfl, rfl⟩
      exact hvalue.2

theorem couples_property (hmem : (v, w) ∈ ps) (k : String) (span : Span) :
    Couples C.verdict (C.Corr ps) (Run.property v k span) (Run.property w k span)
      fun v w => C.Corr ((v, w) :: ps) := by
  refine .look fun b a h => ?_
  dsimp only
  rw [C.kind h hmem]
  split
  · exact .fail_same
  · refine .pure ?_
    rintro _ _ ⟨rfl, rfl⟩
    exact C.property h hmem k

theorem key (hmem : (v, w) ∈ ps) (span : Span) :
    Couples C.verdict (C.Corr ps) (Run.key v span) (Run.key w span)
      fun k l b a => k = l ∧ C.Corr ps b a :=
  couples_key (fun _ _ h => ⟨C.scalar? h hmem, C.kind h hmem⟩) span

theorem couples_mapEntry (hmem : (v, w) ∈ ps) (k : String) :
    Couples C.verdict (C.Corr ps) (do pure ((← get).store.mapEntry v k))
      (do pure ((← get).store.mapEntry w k)) fun v w => C.Corr ((v, w) :: ps) :=
  .look fun b a h => .pure fun b' a' heq => by
    obtain ⟨rfl, rfl⟩ := heq
    exact C.mapEntry h hmem k

theorem readSteps (hmem : (v, w) ∈ ps) (span : Span) (steps : List Step) :
    Couples C.verdict (C.Corr ps) (Run.readSteps span v steps) (Run.readSteps span w steps)
      fun v w => C.Corr ((v, w) :: ps) := by
  induction steps generalizing v w ps with
  | nil => exact .pure fun _ _ h => C.again h hmem
  | cons step steps ih =>
      have hrest : ∀ v w, Couples C.verdict (C.Corr ((v, w) :: ps)) (Run.readSteps span v steps)
          (Run.readSteps span w steps) fun v w => C.Corr ((v, w) :: ps) := fun v w =>
        (ih List.mem_cons_self).post fun _ _ _ _ => C.swap
      cases step with
      | key k => exact (C.couples_property hmem k span).bind hrest
      | entry k =>
          have hentry := (C.couples_mapEntry hmem k).bind hrest
          simpa only [Run.readSteps, bind_assoc, pure_bind] using hentry

theorem readPlace (ps : List (Value × Value)) (names : NameTable) (p : Place) (span : Span) :
    Couples C.verdict (C.Corr ps) (Run.readPlace names p span) (Run.readPlace names p span)
      fun v w => C.Corr ((v, w) :: ps) :=
  (C.lookup names p.root span).bind fun _ _ =>
    (C.readSteps List.mem_cons_self span p.steps).post fun _ _ _ _ => C.swap

theorem method (hmem : (v, w) ∈ ps) (hargs : qs ⊆ ps) (name : String) (span : Span) :
    Couples C.verdict (C.Corr ps) (Run.method v name (qs.map Prod.fst) span)
      (Run.method w name (qs.map Prod.snd) span) fun v w => C.Corr ((v, w) :: ps) := by
  refine .look fun b a h => ?_
  dsimp only
  rw [C.kind h hmem, List.length_map, List.length_map]
  -- All that is refused is refused alike. The name keeps it closed in the cases below.
  obtain ⟨refused, hrefused⟩ : ∃ x : Run Value, x = if (b.store.kind v).isNullish then
      fail (.readOfNullish name (b.store.kind v)) span
      else fail (.unknownMethod name (b.store.kind v) qs.length) span := ⟨_, rfl⟩
  have hfails : Couples C.verdict (fun b' a' => b' = b ∧ a' = a) refused refused
      fun v w => C.Corr ((v, w) :: ps) := by
    rw [hrefused]
    split
    · exact .fail_same
    · exact .fail_same
  rw [← hrefused]
  have hentries := (C.likeness h).mapEntries? (C.again h hmem)
  generalize b.store.mapEntries? v = found at hentries ⊢
  generalize a.store.mapEntries? w = found' at hentries ⊢
  cases hentries with
  | none => exact hfails
  | @some t t' hmatch =>
      have hkey : ∀ {v w : Value}, (v, w) ∈ qs → ∀ b' a', b' = b ∧ a' = a →
          w.scalar? = v.scalar? ∧ a'.store.kind w = b'.store.kind v := by
        rintro v w hvw _ _ ⟨rfl, rfl⟩
        exact ⟨C.scalar? h (hargs hvw), C.kind h (hargs hvw)⟩
      split
      · next arg _ hqs =>
        obtain ⟨⟨arg, arg'⟩, rfl, rfl⟩ := List.map_eq_singleton_iff.mp hqs
        refine (couples_key (hkey List.mem_cons_self) span).bind_same fun k => .pure ?_
        rintro b a ⟨rfl, rfl⟩
        exact C.mapEntry h hmem k
      · next entries arg hentries hqs =>
        cases hentries
        obtain ⟨⟨arg, arg'⟩, rfl, rfl⟩ := List.map_eq_singleton_iff.mp hqs
        refine (couples_key (hkey List.mem_cons_self) span).bind_same fun k => .pure ?_
        rintro b a ⟨rfl, rfl⟩
        rw [hmatch.contains]
        exact C.scalar _ h
      · next hget hhas =>
        split
        · next arg _ hqs =>
          obtain ⟨⟨arg, arg'⟩, rfl, rfl⟩ := List.map_eq_singleton_iff.mp hqs
          exact (hget t arg rfl rfl rfl).elim
        · next arg _ hqs =>
          obtain ⟨⟨arg, arg'⟩, rfl, rfl⟩ := List.map_eq_singleton_iff.mp hqs
          exact (hhas t arg rfl rfl rfl).elim
        · exact hfails

theorem binary (h : (v, w) ∈ ps) (h' : (v', w') ∈ ps) (op : BinaryOp) :
    Couples C.verdict (C.Corr ps) (do pure ((← get).store.binary op v v'))
      (do pure ((← get).store.binary op w w')) fun v w => C.Corr ((v, w) :: ps) := by
  refine .look fun b a hcorr => .pure ?_
  rintro b a ⟨rfl, rfl⟩
  rw [binary_eq (C.scalar? hcorr h) (C.scalar? hcorr h') (C.toNumber hcorr h)
    (C.toNumber hcorr h') (C.joined hcorr h) (C.joined hcorr h')]
  obtain ⟨s, hs⟩ := binary_scalar b.store op v v'
  rw [hs]
  exact C.scalar s hcorr

theorem unary (h : (v, w) ∈ ps) (op : UnaryOp) :
    Couples C.verdict (C.Corr ps) (do pure ((← get).store.unary op v))
      (do pure ((← get).store.unary op w)) fun v w => C.Corr ((v, w) :: ps) := by
  refine .look fun b a hcorr => .pure ?_
  rintro b a ⟨rfl, rfl⟩
  rw [unary_eq (C.scalar? hcorr h) (C.toNumber hcorr h)]
  obtain ⟨s, hs⟩ := unary_scalar b.store op v
  rw [hs]
  exact C.scalar s hcorr

/-! ### Changes of the machine -/

theorem couples_define (hmem : (v, w) ∈ ps) (name : Name) (assignable : Bool) :
    Couples C.verdict (C.Corr ps) (Run.define name v assignable) (Run.define name w assignable)
      fun _ _ => C.Corr ps :=
  fun _ _ h => ⟨(), _, rfl, C.define h hmem name assignable⟩

theorem assign (hmem : (v, w) ∈ ps) (name : Name) (span : Span) :
    Couples C.verdict (C.Corr ps) (Run.assign names name v span) (Run.assign names name w span)
      fun _ _ => C.Corr ps := by
  refine .look fun b a h => ?_
  have hfind := C.find h name
  generalize b.scopes.find? name = found at hfind ⊢
  generalize a.scopes.find? name = found' at hfind ⊢
  cases hfind with
  | none => exact .fail_same
  | @some c d hvalue =>
      dsimp only
      rw [hvalue.1]
      split
      · rintro _ _ ⟨rfl, rfl⟩
        exact ⟨(), _, rfl, C.setValue h hmem name _ _⟩
      · exact .fail_same

theorem inScope {R : α → β → Prop} {x : Run α} {y : Run β}
    (h : Couples C.verdict (C.Corr ps) x y fun v w b a => R v w ∧ C.Corr ps b a) :
    Couples C.verdict (C.Corr ps) (Run.inScope x) (Run.inScope y)
      fun v w b a => R v w ∧ C.Corr ps b a := by
  intro b a hcorr
  rw [Run.inScope, Run.inScope]
  have henter := C.enter hcorr
  cases hy : y { a with scopes := [] :: a.scopes } with
  | ok w a₁ =>
      obtain ⟨v, b₁, hx, hR, hend⟩ := h.ok henter hy
      rw [hx]
      exact ⟨v, _, rfl, hR, C.leave hend⟩
  | error e a₁ =>
      have hadmits := h.error henter hy
      cases hx : x { b with scopes := [] :: b.scopes } with
      | ok v b₁ => rwa [hx] at hadmits
      | error e' b₁ => rwa [hx] at hadmits

end Correspondence

/-! ### Attempts at a write -/

def counts (us : List Value) (m : Machine) : Array Nat := m.store.handles (m.scopes.values ++ us)

def refusal? (span : Span) : Except WriteError α → Option EvalError
  | .ok _ => none
  | .error e => some ⟨.ofWrite e, span⟩

/-- If the right attempt succeeds, then so does the left one, with results in `R`; if the right one
is refused, the verdict admits what the left one comes to. -/
def Attempts (V : Verdict) (x : Except WriteError α) (y : Except WriteError β) (R : α → β → Prop) :
    Prop :=
  match y with
  | .ok w => ∃ v, x = .ok v ∧ R v w
  | .error e => ∀ span, V.admits (refusal? span x) ⟨.ofWrite e, span⟩

theorem Attempts.couples {V : Verdict} {P : Machine → Machine → Prop} {x : Except WriteError α}
    {y : Except WriteError β} {R : α → β → Prop} (h : Attempts V x y R) :
    Couples V P (ofWrite span x) (ofWrite span y) fun v w b a => R v w ∧ P b a := by
  intro b a hP
  cases y with
  | ok w =>
      obtain ⟨v, rfl, hR⟩ := h
      exact ⟨v, b, rfl, hR, hP⟩
  | error e => cases x <;> exact h span

namespace Attempts

variable {V : Verdict} {x : Except WriteError α} {y : Except WriteError β}
  {f : α → Except WriteError γ} {g : β → Except WriteError δ} {R : α → β → Prop} {S : γ → δ → Prop}

theorem error {e e' : WriteError}
    (h : ∀ span, V.admits (some ⟨.ofWrite e, span⟩) ⟨.ofWrite e', span⟩) :
    Attempts V (.error e : Except WriteError α) (.error e' : Except WriteError β) R := h

theorem error_same (e : WriteError) :
    Attempts V (.error e : Except WriteError α) (.error e : Except WriteError β) R :=
  fun _ => V.same _

theorem imp {S : α → β → Prop} (h : Attempts V x y R) (himp : ∀ v w, R v w → S v w) :
    Attempts V x y S := by
  cases y with
  | ok w =>
      obtain ⟨v, rfl, hR⟩ := h
      exact ⟨v, rfl, himp v w hR⟩
  | error e => exact h

theorem bind (h : Attempts V x y R) (hf : ∀ v w, R v w → Attempts V (f v) (g w) S) :
    Attempts V (x >>= f) (y >>= g) S := by
  cases y with
  | ok w =>
      obtain ⟨v, rfl, hR⟩ := h
      exact hf v w hR
  | error e =>
      cases x with
      | ok v => exact fun span => V.later (h span) _
      | error e' => exact h

theorem bind_same {x : Except WriteError α} {f : α → Except WriteError γ}
    {g : α → Except WriteError δ} (hf : ∀ v, x = .ok v → Attempts V (f v) (g v) S) :
    Attempts V (x >>= f) (x >>= g) S := by
  cases x with
  | ok v => exact hf v rfl
  | error e => exact error_same e

end Attempts

/-- A correspondence that lasts through writes too. What the two machines hold beside their scopes
goes with the values at hand. If the ways of a write end at a pair of values in `End`, then the
write goes the same way on both sides. -/
structure Coupling extends Correspondence where
  Held : List (Value × Value) → List Value → List Value → Prop
  held : ∀ {ps us ws}, Held ps us ws → ∀ qs : List (Value × Value),
    Held (qs ++ ps) (qs.map Prod.fst ++ us) (qs.map Prod.snd ++ ws)
  End : List (Value × Value) → List Value → List Value → Machine → Machine → Value → Value → Prop
  follow : ∀ {ps us ws b a name c d}, Held ps us ws → Corr ps b a →
    b.scopes.find? name = some c → a.scopes.find? name = some d → ∀ steps,
    Attempts verdict (b.store.follow (counts us b) c.value steps)
      (a.store.follow (counts ws a) d.value steps) (End ps us ws b a)
  reached : ∀ {ps us ws b a v w}, End ps us ws b a v w → Corr ((v, w) :: ps) b a
  setKey : ∀ {ps us ws b a v w new new'}, End ps us ws b a v w → (new, new') ∈ ps → ∀ k,
    Attempts verdict (b.store.setKey (counts us b) v k new) (a.store.setKey (counts ws a) w k new')
      fun st st' => ∀ writes writes',
        Corr ps ⟨st, b.scopes, writes⟩ ⟨st', a.scopes, writes'⟩
  mapSet : ∀ {ps us ws b a v w new new'}, End ps us ws b a v w → (new, new') ∈ ps → ∀ k,
    Attempts verdict (b.store.mapSet (counts us b) v k new) (a.store.mapSet (counts ws a) w k new')
      fun st st' => ∀ writes writes',
        Corr ((v, w) :: ps) ⟨st, b.scopes, writes⟩ ⟨st', a.scopes, writes'⟩
  mapDelete : ∀ {ps us ws b a v w}, End ps us ws b a v w → ∀ k,
    Attempts verdict (b.store.mapDelete (counts us b) v k) (a.store.mapDelete (counts ws a) w k)
      fun x y => x.1 = y.1 ∧ ∀ writes writes',
        Corr ps ⟨x.2, b.scopes, writes⟩ ⟨y.2, a.scopes, writes'⟩

namespace Coupling

variable (C : Coupling) {ps : List (Value × Value)} {us ws : List Value} {a b : Machine}

variable {C} in
theorem held_cons (h : C.Held ps us ws) (v w : Value) :
    C.Held ((v, w) :: ps) (v :: us) (w :: ws) :=
  C.held h [(v, w)]

/-! ### Writes -/

theorem count {P : Machine → Machine → Prop} {f : Array Nat → Run γ} {g : Array Nat → Run δ}
    {R : γ → δ → Machine → Machine → Prop} (us ws : List Value)
    (h : ∀ b a, P b a → Couples C.verdict (fun b' a' => b' = b ∧ a' = a) (f (counts us b))
      (g (counts ws a)) R) :
    Couples C.verdict P (handles us >>= f) (handles ws >>= g) R :=
  fun b a hP => h b a hP b a ⟨rfl, rfl⟩

theorem couples_reach (hheld : C.Held ps us ws) (h : C.Corr ps b a) (name : Name)
    (steps : List Step) (span : Span) :
    Couples C.verdict (fun b' a' => b' = b ∧ a' = a)
      (Run.reach names (counts us b) name steps span)
      (Run.reach names (counts ws a) name steps span)
      fun v w b' a' => C.End ps us ws b a v w ∧ b' = b ∧ a' = a := by
  rintro b a ⟨rfl, rfl⟩
  have hfind := C.find h name
  rw [Run.reach, Run.reach, bind_apply, bind_apply]
  cases hb : b.scopes.find? name with
  | none =>
      rw [hb] at hfind
      cases ha : a.scopes.find? name with
      | some d => simp [ha] at hfind
      | none =>
          simp only [Run.lookup, bind_apply, get_apply, hb, ha, fail_apply]
          exact C.verdict.same _
  | some c =>
      rw [hb] at hfind
      cases ha : a.scopes.find? name with
      | none => simp [ha] at hfind
      | some d =>
          rw [lookup_bound hb, lookup_bound ha]
          exact (C.follow hheld h hb ha steps).couples (P := fun b' a' => b' = b ∧ a' = a) b a
            ⟨rfl, rfl⟩

theorem couples_reachMap (hheld : C.Held ps us ws) (h : C.Corr ps b a) (p : Place)
    (method : String) (arity : Nat) (span : Span) :
    Couples C.verdict (fun b' a' => b' = b ∧ a' = a)
      (Run.reachMap names (counts us b) p method arity span)
      (Run.reachMap names (counts ws a) p method arity span)
      fun v w b' a' => C.End ps us ws b a v w ∧ b' = b ∧ a' = a := by
  refine (C.couples_reach hheld h p.root p.steps span).bind fun v w => .look ?_
  rintro b a ⟨hend, rfl, rfl⟩
  dsimp only
  rw [C.kind (C.reached hend) List.mem_cons_self]
  split
  · exact .pure fun b' a' heq => ⟨hend, heq⟩
  · split
    · exact .fail_same
    · exact .fail_same

theorem couples_keep {x y : Except WriteError Store} {wr wr' : Write}
    (h : Attempts C.verdict x y fun st st' => ∀ writes writes',
      C.Corr ps ⟨st, b.scopes, writes⟩ ⟨st', a.scopes, writes'⟩) :
    Couples C.verdict (fun b' a' => b' = b ∧ a' = a) (Run.keep span wr x) (Run.keep span wr' y)
      fun _ _ => C.Corr ps := by
  refine Couples.bind h.couples fun st st' => ?_
  rintro _ _ ⟨hcorr, rfl, rfl⟩
  exact ⟨(), _, rfl, hcorr _ _⟩

theorem writePlace (hheld : C.Held ps us ws) (p : Place) (v w : Value) (span : Span) :
    Couples C.verdict (C.Corr ((v, w) :: ps)) (Run.writePlace names us p v span)
      (Run.writePlace names ws p w span) fun _ _ => C.Corr ((v, w) :: ps) := by
  rw [Run.writePlace, Run.writePlace]
  cases p.steps.getLast? with
  | none => exact C.assign List.mem_cons_self p.root span
  | some step =>
      cases step with
      | entry k => exact .fail_same
      | key k =>
          refine C.count (v :: us) (w :: ws) fun b a h => ?_
          refine (C.couples_reach (held_cons hheld v w) h p.root _ span).bind fun t t' => .look ?_
          rintro b' a' ⟨hend, rfl, rfl⟩
          exact C.couples_keep (C.setKey hend List.mem_cons_self k)

theorem couples_mapSet (hheld : C.Held ps us ws) (p : Place) (k : String) (v w : Value)
    (span : Span) :
    Couples C.verdict (C.Corr ((v, w) :: ps)) (Run.mapSet names us p k v span)
      (Run.mapSet names ws p k w span) fun v w => C.Corr ((v, w) :: ps) := by
  refine C.count (v :: us) (w :: ws) fun b a h => ?_
  refine (C.couples_reachMap (held_cons hheld v w) h p "set" 2 span).bind fun t t' => .look ?_
  rintro b' a' ⟨hend, rfl, rfl⟩
  refine Couples.bind (C.couples_keep (C.mapSet hend List.mem_cons_self k)) fun _ _ => ?_
  exact .pure fun b a h => C.swap h

theorem couples_mapDelete (hheld : C.Held ps us ws) (p : Place) (k : String) (span : Span) :
    Couples C.verdict (C.Corr ps) (Run.mapDelete names us p k span)
      (Run.mapDelete names ws p k span) fun v w => C.Corr ((v, w) :: ps) := by
  refine C.count us ws fun b a h => ?_
  refine (C.couples_reachMap hheld h p "delete" 1 span).bind fun t t' => .look ?_
  rintro b' a' ⟨hend, rfl, rfl⟩
  refine Couples.bind (C.mapDelete hend k).couples fun x y => ?_
  rintro _ _ ⟨⟨hremoved, hcorr⟩, rfl, rfl⟩
  refine ⟨_, _, rfl, ?_⟩
  rw [hremoved]
  exact C.scalar _ (hcorr _ _)

/-! ### Expressions -/

def Eval (names : NameTable) (ws : List Value) (e : Expr) : Prop :=
  ∀ {ps us}, C.Held ps us ws →
    Couples C.verdict (C.Corr ps) (eval names us e) (eval names ws e)
      fun v w => C.Corr ((v, w) :: ps)

def EvalList (names : NameTable) (ws : List Value) (es : List Expr) : Prop :=
  ∀ {ps us}, C.Held ps us ws →
    Couples C.verdict (C.Corr ps) (evalList names us es) (evalList names ws es)
      fun vs vs' b a => ∃ qs : List (Value × Value), vs = qs.map Prod.fst ∧ vs' = qs.map Prod.snd ∧
        C.Corr (qs ++ ps) b a

def EvalEntries (names : NameTable) (ws : List Value) (fields : Table Value)
    (es : List Property) : Prop :=
  ∀ {ps us} (t : Table (Value × Value)), C.Held ps us ws → fields = t.map Prod.snd →
    Couples C.verdict (C.Corr (t.values ++ ps)) (evalEntries names us (t.map Prod.fst) es)
      (evalEntries names ws fields es) fun f g b a => ∃ t' : Table (Value × Value),
        f = t'.map Prod.fst ∧ g = t'.map Prod.snd ∧ C.Corr (t'.values ++ ps) b a

def EvalPlace (names : NameTable) (ws : List Value) (e : Expr) : Prop :=
  ∀ {ps us}, C.Held ps us ws →
    Couples C.verdict (C.Corr ps) (place names us e) (place names ws e)
      fun p q b a => p = q ∧ C.Corr ps b a

theorem keyed {names : NameTable} {target index : Expr} (ih : C.EvalPlace names ws target)
    (ihindex : C.Eval names ws index) (hheld : C.Held ps us ws) :
    Couples C.verdict (C.Corr ps) (Run.keyed names us target index)
      (Run.keyed names ws target index) fun p q b a => p = q ∧ C.Corr ps b a := by
  refine (ih hheld).bind_same fun p => ?_
  refine (ihindex hheld).bind fun v w => ?_
  refine (C.key List.mem_cons_self _).bind_same fun k => ?_
  exact .pure fun b a h => ⟨rfl, C.tail h⟩

section Cases

variable {names : NameTable} {site site' : Site} {e base index left right target value : Expr}
  {prop : Name}

theorem eval_literal {a : Scalar} (h : e.literal? names = some a) : C.Eval names ws e := by
  intro ps us _
  rw [Run.eval_literal h, Run.eval_literal h]
  exact .pure fun b m h => C.scalar a h

theorem eval_ident {name : Name} : C.Eval names ws (.ident site name) := by
  intro ps us _
  rw [eval, eval]
  exact C.lookup names name site.span

theorem eval_member (ih : C.Eval names ws base) : C.Eval names ws (.member site base prop) := by
  intro ps us hheld
  rw [eval, eval]
  refine (ih hheld).bind fun v w => ?_
  exact (C.couples_property List.mem_cons_self _ _).post fun _ _ _ _ => C.swap

theorem eval_index (ih : C.Eval names ws base) (ihindex : ∀ w, C.Eval names (w :: ws) index) :
    C.Eval names ws (.index site base index) := by
  intro ps us hheld
  rw [eval, eval]
  refine (ih hheld).bind fun v w => ?_
  refine (ihindex w (held_cons hheld v w)).bind fun k l => ?_
  refine (C.key List.mem_cons_self _).bind_same fun k => ?_
  refine (C.couples_property (List.mem_cons_of_mem _ List.mem_cons_self) k _).post
    fun _ _ _ _ h => C.swap (C.swap h)

theorem eval_set (hset : names.lookup prop = "set") (ih : C.EvalPlace names ws base)
    (ihindex : C.Eval names ws index) (ihvalue : C.Eval names ws value) :
    C.Eval names ws (.call site (.member site' base prop) [index, value]) := by
  intro ps us hheld
  rw [Run.eval_set hset, Run.eval_set hset]
  refine (C.keyed ih ihindex hheld).bind_same fun p => ?_
  exact (ihvalue hheld).bind fun v w => C.couples_mapSet hheld p.1 p.2 v w site.span

theorem eval_delete (hdelete : names.lookup prop = "delete") (ih : C.EvalPlace names ws base)
    (ihindex : C.Eval names ws index) :
    C.Eval names ws (.call site (.member site' base prop) [index]) := by
  intro ps us hheld
  rw [Run.eval_delete hdelete, Run.eval_delete hdelete]
  exact (C.keyed ih ihindex hheld).bind_same fun p => C.couples_mapDelete hheld p.1 p.2 site.span

theorem eval_method {args : List Expr} (hreads : ReadsOnly names prop args)
    (ih : C.Eval names ws base) (ihargs : ∀ w, C.EvalList names (w :: ws) args) :
    C.Eval names ws (.call site (.member site' base prop) args) := by
  intro ps us hheld
  rw [Run.eval_method hreads, Run.eval_method hreads]
  refine (ih hheld).bind fun v w => ?_
  refine (ihargs w (held_cons hheld v w)).bind fun vs vs' => ?_
  rintro b a ⟨qs, rfl, rfl, h⟩
  refine (C.method (List.mem_append_right qs List.mem_cons_self)
    (List.subset_append_left qs _) _ _).post (fun v w b a h => ?_) b a h
  exact C.subset h (List.cons_subset_cons _ (List.subset_append_of_subset_right qs
    (List.subset_cons_self _ ps)))

theorem eval_fail {fault : EvalFault} {span : Span}
    (h : ∀ us, eval names us e = Run.fail fault span) : C.Eval names ws e := by
  intro ps us _
  rw [h, h]
  exact .fail_same

theorem eval_assign {op : AssignOp}
    (ih : C.EvalPlace names ws target) (ihvalue : C.Eval names ws value) :
    C.Eval names ws (.assign site op target value) := by
  intro ps us hheld
  rw [eval, eval]
  refine (ih hheld).bind_same fun p => ?_
  refine (ihvalue hheld).bind fun v w => ?_
  have hwrite : ∀ new new', Couples C.verdict (C.Corr ((new, new') :: (v, w) :: ps))
      (do Run.writePlace names (v :: us) p new site.span; pure new)
      (do Run.writePlace names (w :: ws) p new' site.span; pure new')
      fun v w => C.Corr ((v, w) :: ps) := fun new new' =>
    Couples.bind (C.writePlace (held_cons hheld v w) p new new' _)
      fun _ _ => .pure fun b a h => C.swap h
  cases op with
  | plain => exact (hwrite v w).pre fun b a h => C.again h List.mem_cons_self
  | compound op =>
      have hold := C.readPlace ((v, w) :: ps) names p site.span
      have hnew : ∀ old old', Couples C.verdict (C.Corr ((old, old') :: (v, w) :: ps))
          (do pure ((← get).store.binary op old v)) (do pure ((← get).store.binary op old' w))
          fun v' w' => C.Corr ((v', w') :: (v, w) :: ps) := fun old old' =>
        (C.binary List.mem_cons_self (List.mem_cons_of_mem _ List.mem_cons_self) op).post
          fun _ _ _ _ => C.swap
      simpa only [bind_assoc, pure_bind] using (hold.bind hnew).bind hwrite

theorem eval_step {op : StepOp} {fixity : Fixity} (ih : C.EvalPlace names ws target) :
    C.Eval names ws (.step site op fixity target) := by
  intro ps us hheld
  rw [eval, eval]
  refine (ih hheld).bind_same fun p => ?_
  refine (C.readPlace ps names p site.span).bind fun v w => ?_
  refine .look fun b a h => ?_
  dsimp only
  rw [C.toNumber h List.mem_cons_self]
  refine Couples.bind ((C.writePlace hheld p _ _ _).pre ?_) fun _ _ =>
    .pure fun b a h => C.scalar _ (C.tail h)
  rintro _ _ ⟨rfl, rfl⟩
  exact C.scalar _ (C.tail h)

theorem eval_binary {op : BinaryOp} (ih : C.Eval names ws left)
    (ihright : ∀ w, C.Eval names (w :: ws) right) :
    C.Eval names ws (.binary site op left right) := by
  intro ps us hheld
  rw [eval, eval]
  refine (ih hheld).bind fun v w => ?_
  refine (ihright w (held_cons hheld v w)).bind fun v' w' => ?_
  exact (C.binary (List.mem_cons_of_mem _ List.mem_cons_self) List.mem_cons_self op).post
    fun _ _ _ _ h => C.swap (C.swap h)

theorem eval_unary {op : UnaryOp} (ih : C.Eval names ws e) :
    C.Eval names ws (.unary site op e) := by
  intro ps us hheld
  rw [eval, eval]
  refine (ih hheld).bind fun v w => ?_
  exact (C.unary List.mem_cons_self op).post fun _ _ _ _ => C.swap

theorem eval_array {items : List Expr} (ih : C.EvalList names ws items) :
    C.Eval names ws (.array site items) := by
  intro ps us hheld
  rw [eval, eval]
  refine (ih hheld).bind fun vs vs' => ?_
  rintro b a ⟨qs, rfl, rfl, h⟩
  exact ⟨_, _, rfl, C.list h⟩

theorem eval_object {entries : List Property} (ih : C.EvalEntries names ws .empty entries) :
    C.Eval names ws (.object site entries) := by
  intro ps us hheld
  rw [eval, eval]
  refine (ih .empty hheld rfl).bind fun fields fields' => ?_
  rintro b a ⟨t, rfl, rfl, h⟩
  exact ⟨_, _, rfl, C.record h⟩

theorem place_root {name : Name} : C.EvalPlace names ws (.ident site name) := by
  intro ps us _
  rw [place, place]
  exact .pure fun b a h => ⟨rfl, h⟩

theorem place_field (ih : C.EvalPlace names ws base) :
    C.EvalPlace names ws (.member site base prop) := by
  intro ps us hheld
  rw [place, place]
  exact (ih hheld).bind_same fun p => .pure fun b a h => ⟨rfl, h⟩

theorem place_item (ih : C.EvalPlace names ws base) (ihindex : C.Eval names ws index) :
    C.EvalPlace names ws (.index site base index) := by
  intro ps us hheld
  rw [place_index, place_index]
  exact (C.keyed ih ihindex hheld).bind_same fun p => .pure fun b a h => ⟨rfl, h⟩

theorem place_entry (hget : names.lookup prop = "get") (ih : C.EvalPlace names ws base)
    (ihindex : C.Eval names ws index) :
    C.EvalPlace names ws (.call site (.member site' base prop) [index]) := by
  intro ps us hheld
  rw [place_get hget, place_get hget]
  exact (C.keyed ih ihindex hheld).bind_same fun p => .pure fun b a h => ⟨rfl, h⟩

theorem place_fail {fault : EvalFault} {span : Span}
    (h : ∀ us, place names us e = Run.fail fault span) : C.EvalPlace names ws e := by
  intro ps us _
  rw [h, h]
  exact .fail_same

theorem evalList_nil : C.EvalList names ws [] := by
  intro ps us _
  rw [evalList, evalList]
  exact .pure fun b a h => ⟨[], rfl, rfl, h⟩

theorem evalList_cons {es : List Expr} (ih : C.Eval names ws e)
    (ihes : ∀ w, C.EvalList names (w :: ws) es) : C.EvalList names ws (e :: es) := by
  intro ps us hheld
  rw [evalList, evalList]
  refine (ih hheld).bind fun v w => ?_
  refine (ihes w (held_cons hheld v w)).bind fun vs vs' => .pure ?_
  rintro b a ⟨qs, rfl, rfl, h⟩
  exact ⟨(v, w) :: qs, rfl, rfl, C.subset h (by simp)⟩

theorem evalEntries_nil {fields : Table Value} : C.EvalEntries names ws fields [] := by
  intro ps us t _ hfields
  rw [evalEntries, evalEntries]
  exact .pure fun b a h => ⟨t, rfl, hfields, h⟩

theorem evalEntries_cons {fields : Table Value} {name : Name} {span : Span} {rest : List Property}
    (ih : C.Eval names (fields.values ++ ws) value)
    (ihrest : ∀ w, C.EvalEntries names ws (fields.insert (names.lookup name) w) rest) :
    C.EvalEntries names ws fields (⟨name, span, value⟩ :: rest) := by
  intro ps us t hheld hfields
  subst hfields
  rw [evalEntries, evalEntries]
  have hheld' := C.held hheld t.values
  rw [← Table.values_map, ← Table.values_map] at hheld'
  refine Couples.bind (ih hheld') fun v w => ?_
  have hinsert : (t.map Prod.fst).insert (names.lookup name) v =
      (t.insert (names.lookup name) (v, w)).map Prod.fst := Table.insert_map Prod.fst t _ (v, w)
  rw [hinsert]
  exact (ihrest w (t.insert (names.lookup name) (v, w)) hheld
    (Table.insert_map Prod.snd t _ (v, w))).pre fun b a h => C.subset h
      (Table.values_insert_subset t _ (v, w) ps)

end Cases

theorem eval_all (names : NameTable) :
    (∀ ws e, C.Eval names ws e) ∧
    (∀ ws fields es, C.EvalEntries names ws fields es) ∧
    (∀ ws es, C.EvalList names ws es) ∧
    ∀ ws e, C.EvalPlace names ws e := by
  apply eval_induct names
  case literal => exact C.eval_literal
  case ident => exact C.eval_ident
  case member => exact C.eval_member
  case index => exact C.eval_index
  case set => exact C.eval_set
  case delete => exact C.eval_delete
  case method => exact C.eval_method
  case notCallable => exact C.eval_fail
  case assign => exact C.eval_assign
  case step => exact C.eval_step
  case binary => exact C.eval_binary
  case unary => exact C.eval_unary
  case array => exact C.eval_array
  case object => exact C.eval_object
  case root => exact C.place_root
  case field => exact C.place_field
  case item => exact C.place_item
  case entry => exact C.place_entry
  case notAPlace => exact C.place_fail
  case nil => exact C.evalList_nil
  case cons => exact C.evalList_cons
  case noEntries => exact C.evalEntries_nil
  case addEntry => exact C.evalEntries_cons

theorem couples_eval (names : NameTable) (hheld : C.Held ps us ws) (e : Expr) :
    Couples C.verdict (C.Corr ps) (eval names us e) (eval names ws e)
      fun v w => C.Corr ((v, w) :: ps) :=
  (C.eval_all names).1 ws e hheld

/-! ### Statements -/

/-- Both runs come to the same. -/
def Same (ps : List (Value × Value)) (x y : Run α) : Prop :=
  Couples C.verdict (C.Corr ps) x y fun v w b a => v = w ∧ C.Corr ps b a

theorem exec_all (names : NameTable) (hheld : C.Held ps us ws) :
    (∀ s, C.Same ps (exec names us s) (exec names ws s)) ∧
    ∀ ss, C.Same ps (execList names us ss) (execList names ws ss) := by
  have hnext : ∀ flow : Flow, C.Same ps (pure flow) (pure flow) := fun flow =>
    .pure fun b a h => ⟨rfl, h⟩
  apply stmts_induct
  case expr =>
    intro span value
    rw [exec, exec]
    exact (C.couples_eval names hheld value).bind fun v w => .pure fun b a h => ⟨rfl, C.tail h⟩
  case declare =>
    intro span name assignable initial
    cases initial with
    | some e =>
        simp only [exec]
        refine (C.couples_eval names hheld e).bind fun v w => ?_
        refine (C.couples_define List.mem_cons_self name assignable).bind fun _ _ => ?_
        exact .pure fun b a h => ⟨rfl, C.tail h⟩
    | none =>
        simp only [exec, pure_bind]
        have hdefine : Couples C.verdict (C.Corr ((.undefined, .undefined) :: ps))
            (Run.define name .undefined assignable) (Run.define name .undefined assignable)
            fun _ _ => C.Corr ((.undefined, .undefined) :: ps) :=
          C.couples_define List.mem_cons_self name assignable
        refine (hdefine.pre fun b a h => C.scalar _ h).bind fun _ _ => ?_
        exact .pure fun b a h => ⟨rfl, C.tail h⟩
  case ret =>
    intro span value
    cases value with
    | some e =>
        simp only [exec]
        exact (C.couples_eval names hheld e).bind fun v w => .pure fun b a h => ⟨rfl, C.tail h⟩
    | none =>
        rw [exec, exec]
        exact hnext _
  case block =>
    intro span first body ih
    rw [exec, exec]
    exact C.inScope ih
  case empty =>
    intro span
    rw [exec, exec]
    exact hnext _
  case nil =>
    rw [execList, execList]
    exact hnext _
  case cons =>
    intro s rest ih ihrest
    rw [execList, execList]
    refine ih.bind_same fun flow => ?_
    cases flow with
    | returned => exact hnext _
    | next => exact ihrest

theorem execBody (names : NameTable) (hheld : C.Held ps us ws) (body : ProcedureBody) :
    C.Same ps (Run.execBody names us body) (Run.execBody names ws body) := by
  cases body with
  | expr value =>
      rw [Run.execBody, Run.execBody]
      exact (C.couples_eval names hheld value).bind fun v w => .pure fun b a h => ⟨rfl, C.tail h⟩
  | block first body =>
      rw [Run.execBody, Run.execBody]
      exact C.inScope ((C.exec_all names hheld).2 body)

end Coupling

end Run

end PathCopy
