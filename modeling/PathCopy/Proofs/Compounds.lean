import PathCopy.Proofs.Acyclicity
import PathCopy.Proofs.Readings
import PathCopy.Proofs.Relocation

/-!
Compound assignments. A compound assignment evaluates its right-hand side before it reads the old
value of the target, and holds the result while it writes. The plain assignment of the binary
expression reads the target first, and holds what it read while the right-hand side is evaluated.
The two come to the same if the right-hand side leaves the old value alone and its result does not
lead to a container on the way of the write.
-/

namespace PathCopy

open Store

/-! ### Handles to what is within reach -/

theorem Store.claim_congr_places {st : Store} {roots roots' : List Value} {r : Ref}
    (h : st.places roots r = st.places roots' r) :
    st.claim (st.handles roots) r = st.claim (st.handles roots') r := by
  rcases Nat.lt_or_ge r.index st.size with hlt | hge
  · rw [claim, claim, handles_eq_places hlt, handles_eq_places hlt, h]
  · rw [claim, claim, node_of_size_le st r hge]
    rfl

/-- What is read at a place is a scalar or lies inside the value of its variable. -/
theorem Machine.root_of_read {m : Machine} {names : NameTable} {span : Span} {p : Place} {v : Value}
    (h : m.read names span p = .ok v) :
    ∃ b, m.scopes.find? p.root = some b ∧ m.store.Within [b.value] v := by
  rw [Machine.read] at h
  cases hb : m.scopes.find? p.root with
  | none =>
      rw [hb] at h
      cases h
  | some b =>
      rw [hb] at h
      exact ⟨b, rfl, within_of_read h⟩

theorem Machine.within_of_read {m : Machine} {names : NameTable} {span : Span} {p : Place}
    {v : Value} (h : m.read names span p = .ok v) (held : List Value) :
    m.store.Within (m.scopes.values ++ held) v := by
  obtain ⟨b, hb, hwithin⟩ := Machine.root_of_read h
  refine hwithin.trans fun u hu => m.within_bound held u ?_
  exact List.mem_singleton.mp hu ▸ Scopes.mem_values_of_find? hb

/-- The variable is bound as before, and nothing inside its value has changed. -/
structure Machine.Keeps (x : Name) (m m' : Machine) : Prop where
  find : m'.scopes.find? x = m.scopes.find? x
  size_le : m.store.size ≤ m'.store.size
  below : ∀ {b}, m.scopes.find? x = some b → m.store.AgreeBelow m'.store b.value

namespace Machine.Keeps

variable {m m' : Machine} {x : Name}

theorem refl (m : Machine) (x : Name) : m.Keeps x m :=
  ⟨rfl, Nat.le_refl _, fun _ _ _ => rfl⟩

theorem read_eq (h : m.Keeps x m') {p : Place} (hp : p.root = x) (names : NameTable)
    (span : Span) : m'.read names span p = m.read names span p := by
  rw [Machine.read, Machine.read, hp, h.find]
  cases hb : m.scopes.find? x with
  | none => rfl
  | some b => exact (h.below hb).read_eq

theorem alloc (h : m.Keeps x m') (hsound : m.store.Sound m.scopes.values) (body : Body) :
    m.Keeps x { m' with store := (m'.store.alloc body).2 } where
  find := h.find
  size_le := by simpa using Nat.le_succ_of_le h.size_le
  below hb := by
    refine (h.below hb).trans ((extends_alloc m'.store body).agreeBelow fun r hr => ?_)
    have hr' := (h.below hb).reaches_iff.mp hr
    exact Nat.lt_of_lt_of_le (hsound r ⟨_, Scopes.mem_values_of_find? hb, hr'⟩) h.size_le

theorem wrote {held new : List Value} {w : Write} {m'' : Machine} (h : m.Keeps x m')
    (hw : w.root ≠ x) (hwrote : Run.Wrote held new w m' m'') : m.Keeps x m'' := by
  cases hwrote with
  | assigned hb =>
      refine ⟨?_, h.size_le, h.below⟩
      rw [Scopes.find?_setValue, if_neg hw.symm, h.find]
  | stored hb hwritten =>
      obtain ⟨others, hcounted, -, hothers⟩ := Run.counted_others hb held
      obtain ⟨t, body, rfl, -⟩ := hwritten.exists_setBody hcounted
      refine ⟨h.find, by simpa using h.size_le, fun {b} hx => (h.below hx).trans ?_⟩
      exact hwritten.agreeBelow hcounted (hothers x b hw.symm (h.find.trans hx))

end Machine.Keeps

namespace Run

variable {names : NameTable} {held us ws : List Value} {m m' m₀ m₁ m₂ : Machine}
  {u v w new left : Value} {p : Place} {span at' at'' : Span} {t e : Expr}
  {site site' : Site} {op : BinaryOp}

/-- More handles to what a variable holds make no difference to writes through the other
variables: the way of such a write comes to no node that the first one leads to, unless it is
refused there in any case. -/
theorem bystanders_inside (x : Name) (vs : List Value)
    (hsound : m₀.store.Sound m₀.scopes.values)
    (hvs : ∀ v ∈ vs, ∃ b, m₀.scopes.find? x = some b ∧ m₀.store.Within [b.value] v) :
    Bystanders (· ≠ x) (fun us ws => ws.Perm (vs ++ us)) (m₀.Keeps x) where
  cons v h := (h.cons v).trans List.perm_middle.symm
  alloc body h := h.alloc hsound body
  wrote _ h hroot hwrote := h.wrote hroot hwrote
  claims {us ws m y b} hperm hm hy hb steps way r _ hfollow := by
    have hroots : (m.scopes.values ++ ws).Perm (vs ++ (m.scopes.values ++ us)) := by
      refine (hperm.append_left m.scopes.values).trans ?_
      rw [← List.append_assoc, ← List.append_assoc]
      exact List.perm_append_comm.append_right us
    have hbelow : ∀ v ∈ vs, ∃ b, m.scopes.find? x = some b ∧ m.store.Within [b.value] v := by
      intro v hv
      obtain ⟨b, hb, hwithin⟩ := hvs v hv
      refine ⟨b, hm.find.trans hb, hwithin.imp id ?_⟩
      rintro ⟨u, hu, huv⟩
      rw [List.mem_singleton.mp hu] at huv
      exact ⟨b.value, List.mem_cons_self, (hm.below hb).reaches_iff.mpr huv⟩
    have hplaces : m.store.places (m.scopes.values ++ ws) r =
        occurrences r vs + m.store.places (m.scopes.values ++ us) r := by
      refine (places_perm hroots).trans (places_append_within fun v hv => ?_)
      obtain ⟨b, hb, hwithin⟩ := hbelow v hv
      refine hwithin.trans fun u hu => within_of_mem (List.mem_append_left us ?_)
      exact List.mem_singleton.mp hu ▸ Scopes.mem_values_of_find? hb
    by_cases hmem : .node r ∈ vs
    · -- The variable leads to the node as well, so the node has a second handle.
      have hshared : ¬ m.store.Claimed (m.store.handles (m.scopes.values ++ us)) r := by
        intro hclaimed
        obtain ⟨c, hc, hwithin⟩ := hbelow _ hmem
        obtain ⟨others, hcounted, -, hothers⟩ := counted_others hb us
        obtain ⟨u, hu, hur⟩ := within_node_iff.mp hwithin
        refine (chain_of_follow hfollow).alone hclaimed hcounted u ?_ hur
        rw [List.mem_singleton.mp hu]
        exact List.mem_append_right _ (hothers x c (Ne.symm hy) hc)
      refine claim_congr rfl (iff_of_false hshared fun hclaimed => hshared ⟨hclaimed.unfrozen, ?_⟩)
      have hlt := hclaimed.index_lt
      have hsole := hclaimed.sole
      rw [handles_eq_places hlt, hplaces] at hsole
      rw [handles_eq_places hlt]
      omega
    · refine claim_congr_places ?_
      have hzero : occurrences r vs = 0 :=
        Nat.eq_zero_of_not_pos fun hpos => hmem (occurrences_pos.mp hpos)
      rw [hplaces, hzero, Nat.zero_add]

theorem bystanders_scalar (a : Scalar) :
    Bystanders (fun _ => True) (fun us ws => ws.Perm (.scalar a :: us)) (fun _ => True) where
  cons v h := (h.cons v).trans (.swap _ _ _)
  alloc _ _ := trivial
  wrote _ _ _ _ := trivial
  claims {us ws m y b} hperm _ _ _ steps way r _ _ := by
    have hroots : (m.scopes.values ++ ws).Perm ([.scalar a] ++ (m.scopes.values ++ us)) :=
      (hperm.append_left m.scopes.values).trans List.perm_middle
    refine claim_congr_places ((places_perm hroots).trans ?_).symm
    rw [places_append_apart]
    intro v hv hreach
    rw [List.mem_singleton.mp hv] at hreach
    cases reaches_scalar hreach

/-! ### The old value -/

/-- The right-hand side leaves the old value of the target alone. It does not write through the
variable of the target; or the old value is no container, and is there after it as before. -/
def LeavesOld (names : NameTable) (held : List Value) (span : Span) (t e : Expr) (m : Machine) :
    Prop :=
  e.WritesOnly names (fun x => t.root? ≠ some x) ∨
    ∀ p m₁, place names held t m = .ok p m₁ → (∀ r, m₁.read names span p ≠ .ok (.node r)) ∧
      ∀ v m₂, eval names held e m₁ = .ok v m₂ → m₂.read names span p = m₁.read names span p

/-- Then it is read after the right-hand side as before it, and it makes no difference whether it
is held meanwhile. -/
theorem LeavesOld.old_value (h : LeavesOld names held span t e m)
    (hplace : place names held t m = .ok p m₁) (hroot : t.root? = some p.root)
    (hsound : m₁.store.Sound m₁.scopes.values) :
    (∀ v m₂, eval names held e m₁ = .ok v m₂ →
      m₂.read names span p = m₁.read names span p) ∧
    ∀ left, m₁.read names span p = .ok left →
      eval names held e m₁ = eval names (left :: held) e m₁ := by
  rcases h with hwrites | hstays
  · have hwrites : e.WritesOnly names (· ≠ p.root) := fun n hn x hx hxp =>
      hwrites n hn x hx (hxp ▸ hroot)
    refine ⟨fun v m₂ hrun => ?_, fun left hleft => ?_⟩
    · obtain ⟨-, hok⟩ := (bystanders_inside p.root [] hsound (by simp)).eval held held
        (List.Perm.refl _) hwrites m₁ (.refl m₁ _)
      exact (hok v m₂ hrun).2.read_eq rfl names span
    · have hvs : ∀ v ∈ [left], ∃ b, m₁.scopes.find? p.root = some b ∧
          m₁.store.Within [b.value] v := by
        intro v hv
        rw [List.mem_singleton.mp hv]
        exact Machine.root_of_read hleft
      exact ((bystanders_inside p.root [left] hsound hvs).eval held (left :: held)
        (List.Perm.refl _) hwrites m₁ (.refl m₁ _)).1
  · obtain ⟨hnode, hstays⟩ := hstays p m₁ hplace
    refine ⟨hstays, fun left hleft => ?_⟩
    cases left with
    | node r => exact absurd hleft (hnode r)
    | scalar a =>
        have hall : e.WritesOnly names fun _ => True := fun _ _ _ _ => trivial
        exact ((bystanders_scalar a).eval held (.scalar a :: held) (List.Perm.refl _) hall m₁
          trivial).1

/-! ### The way of the write -/

/-- The value leads to no container on the way to the place. -/
def Spares (names : NameTable) (span : Span) (m : Machine) (p : Place) (v : Value) : Prop :=
  ∀ way r, way <+: p.steps → way ≠ p.steps → m.read names span ⟨p.root, way⟩ = .ok (.node r) →
    ¬ m.store.Reaches v (.node r)

theorem spares_scalar (a : Scalar) : Spares names span m p (.scalar a) :=
  fun _ _ _ _ _ hreach => by cases reaches_scalar hreach

/-- Of two held values that spare the way, a write tells neither. -/
theorem writePlace_spared (hv : Spares names span m p v) (hw : Spares names span m p w)
    (at' : Span) :
    writePlace names (v :: held) p new at' m = writePlace names (w :: held) p new at' m := by
  refine writePlace_congr fun steps k b hsteps hb way r hway hfollow => ?_
  have hproper : way <+: p.steps ∧ way ≠ p.steps := by
    rw [hsteps]
    refine ⟨hway.trans (List.prefix_append _ _), fun heq => ?_⟩
    have hlength := hway.length_le
    simp [heq] at hlength
  have hread : m.read names span ⟨p.root, way⟩ = .ok (.node r) := by
    simp only [Machine.read, hb]
    exact read_of_follow hfollow
  have hplaces : ∀ {u}, Spares names span m p u →
      m.store.places (m.scopes.values ++ new :: u :: held) r =
        m.store.places (m.scopes.values ++ new :: held) r := by
    intro u hu
    have hroots : (m.scopes.values ++ new :: u :: held).Perm
        ([u] ++ (m.scopes.values ++ new :: held)) :=
      ((List.Perm.swap u new held).append_left _).trans List.perm_middle
    refine (places_perm hroots).trans (places_append_apart fun x hx => ?_)
    exact List.mem_singleton.mp hx ▸ hu way r hproper.1 hproper.2 hread
  exact claim_congr_places ((hplaces hv).trans (hplaces hw).symm)

theorem spares_of_writePlace {u : Unit} (h : writePlace names (v :: held) p new at' m = .ok u m')
    (span : Span) : Spares names span m p v := by
  intro way r hway hproper hread
  obtain ⟨hsteps, -⟩ | ⟨steps, k, b, container, st, hsteps, hb, hfollow, hset, -⟩ :=
    writePlace_cases h
  · rw [hsteps] at hway hproper
    exact absurd (List.prefix_nil.mp hway) hproper
  · rw [hsteps] at hway hproper
    have hway : way <+: steps := (List.prefix_concat_iff.mp hway).resolve_left hproper
    obtain ⟨rest, rfl⟩ := hway
    obtain ⟨w, hleft, hright⟩ := except_bind_ok ((follow_append ..).symm.trans hfollow)
    have hw : w = .node r := by
      simp only [Machine.read, hb] at hread
      exact Except.ok.inj ((read_of_follow hleft).symm.trans hread)
    subst hw
    have hclaimed : m.store.Claimed (m.store.handles (m.scopes.values ++ new :: v :: held)) r := by
      cases rest with
      | nil =>
          cases hright
          obtain ⟨t, body, ht, hclaimed, -⟩ := setKey_cases hset
          cases ht
          exact hclaimed
      | cons step rest =>
          obtain ⟨u, hchild, -⟩ := except_bind_ok hright
          obtain ⟨t, ht, hclaimed, -⟩ := child_ok hchild
          cases ht
          exact hclaimed
    obtain ⟨others, hcounted, hheld, -⟩ := counted_others hb (new :: v :: held)
    refine (chain_of_follow hleft).alone hclaimed hcounted v (List.mem_append_right _ (hheld ?_))
    exact List.mem_cons_of_mem _ List.mem_cons_self

/-! ### Evaluating the target once more -/

/-- The machines hold the same nodes at other places, and the values at hand are the same. -/
def SameBut (held : List Value) (b a : Machine) : Prop :=
  Relocated (held.map fun v => (v, v)) b a

theorem SameBut.symm (h : SameBut held m m') : SameBut held m' m := by
  have hback := Relocated.symm h
  rwa [List.map_map] at hback

theorem sameBut_of_grew (h : m.Grew m') (henv : Grounded [] held m) :
    SameBut held m m' := by
  have hagree : ∀ v ∈ m.scopes.values ++ held, m.store.AgreeBelow m'.store v := fun v hv =>
    h.agreeBelow henv.sound hv
  refine ⟨corresponds_of_node_eq h.scopes (fun r hr => ?_) henv.founded, ?_⟩
  · have hlt := henv.sound r hr
    exact ⟨hlt, Nat.lt_of_lt_of_le hlt h.size_le, h.node hlt⟩
  · rw [List.map_map]
    refine corresponds_of_node_eq h.scopes.symm (fun r hr => ?_) fun v hv => ?_
    · rw [h.scopes] at hr
      obtain ⟨v, hv, hreach⟩ := hr
      have hlt := henv.sound r ⟨v, hv, (hagree v hv).reaches_iff.mp hreach⟩
      exact ⟨Nat.lt_of_lt_of_le hlt h.size_le, hlt, (h.node hlt).symm⟩
    · rw [h.scopes] at hv
      exact (hagree v hv).founded (henv.founded v hv)

theorem grounded_of_grew (h : m.Grew m') (henv : Grounded [] held m) : Grounded [] held m' where
  subset := henv.subset
  sound := h.scopes ▸ h.sound henv.sound
  founded v hv := by
    rw [h.scopes] at hv
    exact (h.agreeBelow henv.sound hv).founded (henv.founded v hv)

theorem held_twice (held : List Value) :
    relocating.Held (held.map fun v => (v, v)) held held := by
  constructor
  · simp [Function.comp_def]
  · simp [Function.comp_def]

/-- A target whose place is known can be evaluated exactly if its place can be read. -/
theorem eval_target (htarget : t.isTarget) (hquiet : ∀ k ∈ t.keys, k.Quiet names)
    (henv : Grounded [] held m) (hplace : place names held t m = .ok p m₁) (span : Span) :
    ∃ m₂, m₁.Grew m₂ ∧
      ∀ v m', eval names held t m₁ = .ok v m' ↔ m' = m₂ ∧ m₁.read names span p = .ok v := by
  obtain ⟨-, hgrew⟩ := place_quiet hquiet hplace
  have henv₁ := grounded_of_grew hgrew henv
  have hsound : m₁.store.Sound m₁.scopes.values := henv₁.sound.mono (m₁.within_bound held)
  -- The place is the same one when it is looked for again.
  have hback := (sameBut_of_grew hgrew henv).symm
  obtain ⟨q, m₂, hagain, rfl, -⟩ :=
    ((relocating.eval_all names).2.2.2 held t (held_twice held)).ok hback hplace
  have hgrew₂ := (place_quiet hquiet hagain).2
  have hreads := eval_and_read hquiet hsound hagain span
  have hsame := hgrew₂.read_eq hsound names span
  refine ⟨m₂, hgrew₂, fun v m' => ⟨fun h => ?_, ?_⟩⟩
  · obtain ⟨hm, hv⟩ := hreads.read h
    exact ⟨hm, (hsame _).symm.trans hv⟩
  · rintro ⟨rfl, hv⟩
    refine (hreads.eval ((hsame _).trans hv)).resolve_right fun hnot => ?_
    rw [htarget] at hnot
    cases hnot.1

/-! ### The two assignments -/

/-- Whatever the right-hand side comes to spares the way to the target. -/
def Spared (names : NameTable) (held : List Value) (span : Span) (t e : Expr) (m : Machine) :
    Prop :=
  ∀ p m₁ v m₂, place names held t m = .ok p m₁ → eval names held e m₁ = .ok v m₂ →
    Spares names span m₂ p v

def Readable (names : NameTable) (held : List Value) (span : Span) (t : Expr) (m : Machine) :
    Prop :=
  ∀ p m₁, place names held t m = .ok p m₁ → ∃ v, m₁.read names span p = .ok v

def put (names : NameTable) (held : List Value) (p : Place) (span : Span) (v new : Value) :
    Run Value := do
  writePlace names (v :: held) p new span
  pure new

def combine (names : NameTable) (held : List Value) (p : Place) (span : Span) (op : BinaryOp)
    (left : Value) (e : Expr) : Run Value := do
  let v ← eval names (left :: held) e
  let new := (← get).store.binary op left v
  put names held p span new new

theorem eval_compound_apply (hplace : place names held t m = .ok p m₁) :
    eval names held (.assign site (.compound op) t e) m =
      (do
        let v ← eval names held e
        let old ← readPlace names p site.span
        put names held p site.span v ((← get).store.binary op old v)) m₁ := by
  rw [eval, bind_apply, hplace]
  simp only [pure_bind, put]

theorem eval_plain_apply (hplace : place names held t m = .ok p m₁) :
    eval names held (.assign site .plain t (.binary site' op t e)) m =
      (do
        let left ← eval names held t
        combine names held p site.span op left e) m₁ := by
  rw [eval, bind_apply, hplace]
  simp only [eval, bind_assoc, pure_bind, combine, put]

/-- Where the nodes are makes no difference to the end of the two assignments. -/
theorem combine_couples (held : List Value) :
    Couples .exact (SameBut (left :: held)) (combine names held p span op left e)
      (combine names held p span op left e) fun v w b a => v = w ∧ SameBut held b a := by
  refine ((relocating.eval_all names).1 (left :: held) e (held_twice _)).bind fun v w =>
    .look fun b a h => ?_
  have hleft : (left, left) ∈ (v, w) :: (left :: held).map fun v => (v, v) :=
    List.mem_cons_of_mem _ List.mem_cons_self
  have hnew : a.store.binary op left w = b.store.binary op left v :=
    binary_eq (relocating.scalar? h hleft) (relocating.scalar? h List.mem_cons_self)
      (relocating.toNumber h hleft) (relocating.toNumber h List.mem_cons_self)
      (relocating.joined h hleft) (relocating.joined h List.mem_cons_self) op
  obtain ⟨s, hs⟩ := binary_scalar b.store op left v
  rw [hnew, hs]
  have hscalar := relocating.scalar s (relocating.scalar s h)
  refine Couples.bind ((relocating.writePlace (held_twice (.scalar s :: held)) p (.scalar s)
    (.scalar s) span).pre ?_) fun _ _ => .pure fun b a h => ⟨rfl, ?_⟩
  · rintro _ _ ⟨rfl, rfl⟩
    refine relocating.subset hscalar (List.cons_subset_cons _ (List.cons_subset_cons _ ?_))
    exact fun q hq => List.mem_cons_of_mem _ (List.mem_cons_of_mem _ hq)
  · exact relocating.subset h fun q hq => List.mem_cons_of_mem _ (List.mem_cons_of_mem _ hq)

section

variable (hplace : place names held t m = .ok p m₁)
  (hstays : ∀ v m₂, eval names held e m₁ = .ok v m₂ →
    m₂.read names site.span p = m₁.read names site.span p)

include hplace hstays

/-- Without an old value the compound assignment fails. -/
theorem readable_of_compound
    (h : eval names held (.assign site (.compound op) t e) m = .ok w m') :
    ∃ left, m₁.read names site.span p = .ok left := by
  rw [eval_compound_apply hplace] at h
  obtain ⟨v, m₂, hv, h⟩ := bind_ok h
  obtain ⟨old, m₃, hold, -⟩ := bind_ok h
  rw [Still.eq (still_readPlace p _), outcome_readPlace, hstays v m₂ hv] at hold
  cases hread : m₁.read names site.span p with
  | ok left => exact ⟨left, rfl⟩
  | error err =>
      rw [hread] at hold
      cases hold

variable (hleft : m₁.read names site.span p = .ok left)
  (hheld : eval names held e m₁ = eval names (left :: held) e m₁)

include hleft hheld

/-- The old value, which is read after the right-hand side, might as well be held from the start:
the compound assignment differs only in that it holds the right-hand side. -/
theorem compound_eq_combine (op : BinaryOp)
    (hspares : ∀ v m₂, eval names held e m₁ = .ok v m₂ → Spares names site.span m₂ p v) :
    eval names held (.assign site (.compound op) t e) m =
      combine names held p site.span op left e m₁ := by
  rw [eval_compound_apply hplace, combine, bind_apply, bind_apply, ← hheld]
  cases hv : eval names held e m₁ with
  | error err m₂ => rfl
  | ok v m₂ =>
      have hold : readPlace names p site.span m₂ = .ok left m₂ := by
        rw [Still.eq (still_readPlace p _), outcome_readPlace, hstays v m₂ hv, hleft]
      obtain ⟨s, hs⟩ := binary_scalar m₂.store op left v
      have hwrite : put names held p site.span v (.scalar s) m₂ =
          put names held p site.span (.scalar s) (.scalar s) m₂ := by
        rw [put, bind_apply, writePlace_spared (hspares v m₂ hv) (spares_scalar s), put, bind_apply]
      rw [← hs] at hwrite
      dsimp only
      rw [bind_apply, hold]
      exact hwrite

end

theorem spared_of_compound (hplace : place names held t m = .ok p m₁)
    (h : eval names held (.assign site (.compound op) t e) m = .ok w m')
    (hv : eval names held e m₁ = .ok v m₂) : Spares names site.span m₂ p v := by
  rw [eval_compound_apply hplace, bind_apply, hv] at h
  obtain ⟨old, m₃, hold, h⟩ := bind_ok h
  cases (still_readPlace p _).ok hold
  obtain ⟨m₄, m₅, hget, h⟩ := bind_ok h
  cases hget
  obtain ⟨u, m₆, hwrite, -⟩ := bind_ok h
  exact spares_of_writePlace hwrite site.span

/-- The plain assignment of the binary expression, after the target has been evaluated. -/
theorem plain_eq_combine (hplace : place names held t m = .ok p m₁)
    (hleft : eval names held t m₁ = .ok left m₂) :
    eval names held (.assign site .plain t (.binary site' op t e)) m =
      combine names held p site.span op left e m₂ := by
  rw [eval_plain_apply hplace, bind_apply, hleft]

/-- If the first run goes through, then so does the second, with the same value and the same
environment, where nodes may be stored at other places. -/
def EndsAs (held : List Value) (x y : EStateM.Result EvalError Machine Value) : Prop :=
  ∀ w a, x = .ok w a → ∃ b, y = .ok w b ∧ SameBut held b a

theorem combine_endsAs (h : SameBut (left :: held) m m') :
    EndsAs held (combine names held p span op left e m')
      (combine names held p span op left e m) := by
  intro w a hrun
  obtain ⟨v, b, hv, rfl, hsame⟩ := (combine_couples held).ok h hrun
  exact ⟨b, hv, hsame⟩

theorem combine_fails {err : EvalError} (h : SameBut (left :: held) m m')
    (hrun : combine names held p span op left e m' = .error err m₁) :
    ∃ b, combine names held p span op left e m = .error err b := by
  have hadmits : error? (combine names held p span op left e m) = some err :=
    (combine_couples held).error h hrun
  cases hleft : combine names held p span op left e m with
  | ok v b =>
      rw [hleft] at hadmits
      cases hadmits
  | error e' b =>
      rw [hleft] at hadmits
      cases hadmits
      exact ⟨b, rfl⟩

/-- A compound assignment does what the plain assignment of the binary expression does, if its
right-hand side leaves the old value alone: whenever it goes through, the plain one ends as it does.
If the way to the target is spared, then it ends as the plain one does whenever that goes through;
and it fails as the plain one does, if the old value can be read. -/
theorem eval_compound (htarget : t.isTarget) (hquiet : ∀ k ∈ t.keys, k.Quiet names)
    (henv : Grounded [] held m) (hleaves : LeavesOld names held site.span t e m) (op : BinaryOp)
    (site' : Site) :
    EndsAs held (eval names held (.assign site (.compound op) t e) m)
      (eval names held (.assign site .plain t (.binary site' op t e)) m) ∧
    (Spared names held site.span t e m →
      EndsAs held (eval names held (.assign site .plain t (.binary site' op t e)) m)
        (eval names held (.assign site (.compound op) t e) m) ∧
      (Readable names held site.span t m → ∀ err a,
        eval names held (.assign site .plain t (.binary site' op t e)) m = .error err a →
        ∃ b, eval names held (.assign site (.compound op) t e) m = .error err b)) := by
  -- Both find the target first. The plain form reads it before the right-hand side, the other
  -- after.
  cases hplace : place names held t m with
  | error err m₁ =>
      have hfails : ∀ op e, eval names held (.assign site op t e) m = .error err m₁ := by
        intro op e
        rw [eval, bind_apply, hplace]
      rw [hfails, hfails]
      have hends : EndsAs held (.error err m₁) (.error err m₁) := fun w a h => by cases h
      exact ⟨hends, fun _ => ⟨hends, fun _ err' a h => ⟨a, h⟩⟩⟩
  | ok p m₁ =>
      obtain ⟨hroot, hgrew⟩ := place_quiet hquiet hplace
      have henv₁ := grounded_of_grew hgrew henv
      obtain ⟨hstays, hheld⟩ :=
        hleaves.old_value hplace hroot (henv₁.sound.mono (m₁.within_bound held))
      obtain ⟨m₂, hgrew₂, heval⟩ := eval_target htarget hquiet henv hplace site.span
      cases hread : m₁.read names site.span p with
      | error err =>
          -- Without an old value neither goes through.
          refine ⟨fun w a h => ?_, fun _ => ⟨fun w a h => ?_, fun hreadable => ?_⟩⟩
          · obtain ⟨left, hleft⟩ := readable_of_compound hplace hstays h
            cases hread.symm.trans hleft
          · rw [eval_plain_apply hplace] at h
            obtain ⟨left, m₃, hleft, -⟩ := bind_ok h
            cases hread.symm.trans ((heval left m₃).mp hleft).2
          · obtain ⟨left, hleft⟩ := hreadable p m₁ hplace
            cases hread.symm.trans hleft
      | ok left =>
          have hsame : SameBut (left :: held) m₁ m₂ :=
            sameBut_of_grew hgrew₂ (henv₁.cons (Machine.within_of_read hread held))
          have hcompound := compound_eq_combine hplace hstays hread (hheld left hread) op
          rw [plain_eq_combine hplace ((heval left m₂).mpr ⟨rfl, hread⟩)]
          refine ⟨fun w a h => ?_, fun hspared => ?_⟩
          · rw [hcompound fun v m₃ hv => spared_of_compound hplace h hv] at h
            exact combine_endsAs hsame.symm w a h
          · rw [hcompound fun v m₃ hv => hspared p m₁ v m₃ hplace hv]
            exact ⟨combine_endsAs hsame, fun _ err a => combine_fails hsame⟩

def tallyNames : NameTable := ⟨#["", "o", "n", "k", "b"]⟩

def tallyTarget : Expr := .member default (.ident default ⟨1⟩) ⟨2⟩

def tallyStep : Expr := .assign default .plain (.ident default ⟨3⟩) (.string default ⟨4⟩)

/-- A machine with a record and another variable. -/
def tallied : Machine where
  store := ⟨#[⟨false, .record none (.ofList [("n", .text "a")])⟩]⟩
  scopes := [[(⟨1⟩, ⟨.node ⟨0⟩, false⟩), (⟨3⟩, ⟨.text "c", true⟩)]]
  writes := []

theorem eval_compound_tally : ∃ v a b, v.key? = some "ab" ∧
    eval tallyNames [] (.assign default (.compound .add) tallyTarget tallyStep) tallied =
      .ok v a ∧
    eval tallyNames [] (.assign default .plain tallyTarget
      (.binary default .add tallyTarget tallyStep)) tallied = .ok v b ∧
    SameBut [] a b := by
  have hlayered : tallied.store.Layered := by decide
  have henv : Grounded [] [] tallied :=
    ⟨List.Subset.refl _, hlayered.sound (by decide), fun v _ => hlayered.founded v⟩
  have hspared : Spared tallyNames [] default tallyTarget tallyStep tallied := by
    intro p m₁ v m₂ hplace hv
    cases hplace
    cases hv
    exact spares_scalar _
  have hquiet : ∀ k ∈ tallyTarget.keys, k.Quiet tallyNames := by decide
  have hleaves : LeavesOld tallyNames [] (default : Site).span tallyTarget tallyStep tallied :=
    .inl (by decide)
  have hrun : (outcome (eval tallyNames [] (.assign default .plain tallyTarget
      (.binary default .add tallyTarget tallyStep))) tallied).toOption.bind Value.key? =
        some "ab" := by decide +kernel
  rw [outcome] at hrun
  cases hb : eval tallyNames [] (.assign default .plain tallyTarget
      (.binary default .add tallyTarget tallyStep)) tallied with
  | error err b =>
      rw [hb] at hrun
      cases hrun
  | ok v b =>
      rw [hb] at hrun
      obtain ⟨hback, -⟩ := (eval_compound rfl hquiet henv hleaves .add default).2 hspared
      obtain ⟨a, ha, hsame⟩ := hback v b hb
      exact ⟨v, a, b, hrun, ha, rfl, hsame⟩

/-- The text of `x` and what is written to it. -/
def staleNames : NameTable := ⟨#["", "x", "b"]⟩

def stale : Machine where
  store := ⟨#[]⟩
  scopes := [[(⟨1⟩, ⟨.text "a", true⟩)]]
  writes := []

/-- `x += (x = 'b')` reads `x` after the right-hand side has changed it, and `x = x + (x = 'b')`
before that. -/
theorem eval_compound_stale :
    (∃ a, eval staleNames [] (.assign default (.compound .add) (.ident default ⟨1⟩)
      (.assign default .plain (.ident default ⟨1⟩) (.string default ⟨2⟩))) stale =
        .ok (.text "bb") a) ∧
    ∃ b, eval staleNames [] (.assign default .plain (.ident default ⟨1⟩)
      (.binary default .add (.ident default ⟨1⟩)
        (.assign default .plain (.ident default ⟨1⟩) (.string default ⟨2⟩)))) stale =
        .ok (.text "ab") b :=
  ⟨⟨_, rfl⟩, _, rfl⟩

end Run

end PathCopy
