import PathCopy.Proofs.Bystanders
import PathCopy.Proofs.Lookups

/-!
Two ways to read a place. A chain of accesses can be evaluated as an expression, or its keys can be
evaluated first and the place then read. The two treat `get` differently: the method is refused for
what is no map, while the step of a place finds undefined there. A target ends with another access,
which is refused for undefined, so the difference does not show: the reading gives a value exactly
if the evaluation does, and the same one.
-/

namespace PathCopy

/-- The second machine has new nodes, and nothing else has changed. -/
structure Machine.Grew (m m' : Machine) : Prop where
  scopes : m'.scopes = m.scopes
  writes : m'.writes = m.writes
  size_le : m.store.size ≤ m'.store.size
  node : ∀ {r : Ref}, r.index < m.store.size → m'.store.node r = m.store.node r

namespace Machine.Grew

variable {m m' : Machine}

theorem refl (m : Machine) : m.Grew m := ⟨rfl, rfl, Nat.le_refl _, fun _ => rfl⟩

theorem store (h : m.Grew m') : m.store.Extends m'.store where
  size_le := h.size_le
  body_eq hr := congrArg Node.body (h.node hr)
  frozen hr hfrozen := by rwa [h.node hr]

theorem agreeBelow (h : m.Grew m') {roots : List Value} (hsound : m.store.Sound roots) {v : Value}
    (hv : v ∈ roots) : m.store.AgreeBelow m'.store v :=
  hsound.agreeBelow h.store (Store.within_of_mem hv)

theorem sound (h : m.Grew m') {roots : List Value} (hsound : m.store.Sound roots) :
    m'.store.Sound roots := by
  rintro r ⟨v, hv, hr⟩
  have hr' := (h.agreeBelow hsound hv).reaches_iff.mp hr
  exact Nat.lt_of_lt_of_le (hsound r ⟨v, hv, hr'⟩) h.store.size_le

theorem read_eq (h : m.Grew m') (hsound : m.store.Sound m.scopes.values) (names : NameTable)
    (span : Span) (p : Place) : m'.read names span p = m.read names span p := by
  rw [Machine.read, Machine.read, h.scopes]
  cases hb : m.scopes.find? p.root with
  | none => rfl
  | some b => exact (h.agreeBelow hsound (Scopes.mem_values_of_find? hb)).read_eq

end Machine.Grew

/-- A place is read step by step. -/
theorem Machine.read_step (m : Machine) (names : NameTable) (span : Span) (p : Place)
    (step : Step) : m.read names span { p with steps := p.steps ++ [step] } =
      m.read names span p >>= fun u => m.store.readStep span u step := by
  rw [Machine.read, Machine.read]
  cases m.scopes.find? p.root with
  | none => rfl
  | some b =>
      refine (m.store.read_append span b.value p.steps [step]).trans ?_
      refine congrArg _ (funext fun u => ?_)
      rw [Store.read]
      cases m.store.readStep span u step <;> rfl

namespace Run

variable {names : NameTable} {held us ws : List Value} {m m' m₁ m₂ : Machine} {v w : Value}
  {k : String} {span : Span} {p : Place} {e base index : Expr} {site site' : Site} {prop : Name}

/-! ### Quiet expressions -/

/-- Without writes it does not matter what is held, and nothing but new nodes comes of it. -/
theorem bystanders_quiet (m₀ : Machine) :
    Bystanders (fun _ => False) (fun _ _ => True) m₀.Grew where
  cons _ _ := trivial
  alloc body h := by
    refine ⟨h.scopes, h.writes, by simpa using Nat.le_succ_of_le h.size_le, fun hr => ?_⟩
    rw [Store.node_alloc_of_ne (Nat.ne_of_lt (Nat.lt_of_lt_of_le hr h.size_le)), h.node hr]
  wrote _ _ hallowed := hallowed.elim
  claims _ _ hallowed := hallowed.elim

theorem eval_quiet (he : e.Quiet names) (us ws : List Value) (m : Machine) :
    eval names us e m = eval names ws e m ∧
      ∀ v m', eval names us e m = .ok v m' → m.Grew m' := by
  obtain ⟨heq, hok⟩ := (bystanders_quiet m).eval us ws trivial he m (.refl m)
  exact ⟨heq, fun v m' hrun => (hok v m' hrun).2⟩

theorem place_quiet (he : ∀ k ∈ e.keys, k.Quiet names)
    (h : place names held e m = .ok p m') : e.root? = some p.root ∧ m.Grew m' :=
  ((bystanders_quiet m).place held held trivial he m (.refl m)).2 p m' h

/-! ### The parts of the two readings -/

theorem eval_get (hget : names.lookup prop = "get") :
    eval names held (.call site (.member site' base prop) [index]) =
      eval names held base >>= fun receiver => eval names (receiver :: held) index >>= fun arg =>
        method receiver "get" [arg] site.span := by
  rw [eval.eq_11 _ _ _ _ _ _ _ (by simp [hget]) (by simp [hget])]
  simp only [evalList, hget, bind_assoc, pure_bind]

/-- The method `get` finds what the step finds, in a map. -/
theorem method_get_iff {receiver arg : Value} (hk : arg.key? = some k) :
    method receiver "get" [arg] span m = .ok v m' ↔
      (m.store.mapEntries? receiver).isSome ∧ m' = m ∧ v = m.store.mapEntry receiver k := by
  have hkey : key arg span m = .ok k m := by
    simp only [key, hk]
    rfl
  cases hentries : m.store.mapEntries? receiver with
  | none =>
      have hfails : ∃ e, method receiver "get" [arg] span m = .error e m := by
        simp only [method, bind_apply, get_apply, hentries]
        split
        · exact ⟨_, rfl⟩
        · exact ⟨_, rfl⟩
      obtain ⟨e, he⟩ := hfails
      simp [he]
  | some entries =>
      simp only [method, bind_apply, get_apply, hentries, hkey]
      simp [eq_comm, and_comm]

theorem mapEntry_of_none {st : Store} (h : ¬ (st.mapEntries? w).isSome) :
    st.mapEntry w k = .undefined := by
  rw [Store.mapEntry, Option.not_isSome_iff_eq_none.mp h]
  rfl

theorem property_iff (reader : Span) : property v k span m = .ok w m' ↔
    m' = m ∧ m.store.readStep reader v (.key k) = .ok w := by
  rw [property, bind_apply, get_apply, Store.readStep]
  dsimp only
  split
  · simp
  · simp [eq_comm, and_comm]

/-! ### Both readings of a chain -/

/-- Of a chain `e` that evaluates to the place `p` and leaves the machine `m₁`: what the evaluation
gives is read at the place. What is read there the evaluation gives as well, unless the chain ends
with a `get` that finds nothing. -/
structure ReadsAs (names : NameTable) (held : List Value) (span : Span) (m : Machine) (e : Expr)
    (p : Place) (m₁ : Machine) : Prop where
  read : ∀ {v m₂}, eval names held e m = .ok v m₂ → m₂ = m₁ ∧ m₁.read names span p = .ok v
  eval : ∀ {v}, m₁.read names span p = .ok v →
    Run.eval names held e m = .ok v m₁ ∨ e.isTarget = false ∧ v = .undefined

theorem ReadsAs.root {site : Site} {name : Name} :
    ReadsAs names held span m (.ident site name) ⟨name, []⟩ m where
  read := by
    intro v m₂ h
    rw [Run.eval] at h
    obtain rfl := (still_lookup _ _ _).ok h
    obtain ⟨b, hb, rfl⟩ := lookup_ok h
    refine ⟨rfl, ?_⟩
    rw [Machine.read, hb]
    rfl
  eval := by
    intro v h
    rw [Run.eval]
    left
    rw [Machine.read] at h
    cases hb : m.scopes.find? name with
    | none =>
        rw [hb] at h
        cases h
    | some b =>
        rw [hb] at h
        cases h
        exact lookup_bound hb

/-- One more step: after its base the chain does `f`, which reads the step. -/
theorem ReadsAs.step {f : Value → Run Value} {step : Step} {mb : Machine}
    (h : ReadsAs names held span m base p mb)
    (heval : Run.eval names held e = Run.eval names held base >>= f)
    (hback : mb.read names span p = m₁.read names span p)
    (hok : ∀ {u v m₂}, f u mb = .ok v m₂ → m₂ = m₁ ∧ m₁.store.readStep span u step = .ok v)
    (hread : ∀ {u v}, m₁.store.readStep span u step = .ok v →
      f u mb = .ok v m₁ ∨ e.isTarget = false ∧ v = .undefined)
    (hundefined : ∀ {v}, m₁.store.readStep span .undefined step = .ok v →
      e.isTarget = false ∧ v = .undefined) :
    ReadsAs names held span m e { p with steps := p.steps ++ [step] } m₁ where
  read := by
    intro v m₂ hrun
    rw [heval] at hrun
    obtain ⟨u, m', hu, hrun⟩ := bind_ok hrun
    obtain ⟨rfl, hbase⟩ := h.read hu
    obtain ⟨rfl, hv⟩ := hok hrun
    rw [Machine.read_step, ← hback, hbase]
    exact ⟨rfl, hv⟩
  eval := by
    intro v hv
    rw [Machine.read_step] at hv
    obtain ⟨u, hu, hv⟩ := except_bind_ok hv
    rw [← hback] at hu
    rw [heval, bind_apply]
    obtain hbase | ⟨-, rfl⟩ := h.eval hu
    · rw [hbase]
      exact hread hv
    · exact .inr (hundefined hv)

theorem eval_key (span : Span) (hk : v.key? = some k) (heval : eval names us index m = .ok v m₁) :
    (eval names us index >>= fun a => key a span) m = .ok k m₁ := by
  rw [bind_apply, heval]
  simp only [key, hk]
  rfl

/-- A key that writes nothing is the same one whatever is held while it is evaluated, and this makes
no difference to what is read at the place before it. -/
theorem quiet_key {mb : Machine} (hquiet : ∀ k ∈ base.keys ++ [index], k.Quiet names)
    (hsound : m.store.Sound m.scopes.values) (hbase : place names held base m = .ok p mb)
    (hindex : eval names held index mb = .ok v m') :
    (∀ us, eval names us index mb = .ok v m') ∧
      mb.read names span p = m'.read names span p := by
  have hindexQuiet : index.Quiet names := hquiet index (by simp)
  have hgrew := (place_quiet (fun k hk => hquiet k (List.mem_append_left _ hk)) hbase).2
  have hgrew' := (eval_quiet hindexQuiet held held mb).2 v m' hindex
  refine ⟨fun us => ?_, ?_⟩
  · exact (eval_quiet hindexQuiet us held mb).1.trans hindex
  · exact (hgrew'.read_eq (hgrew.scopes ▸ hgrew.sound hsound) names span p).symm

theorem reads_field {site : Site} (h : ReadsAs names held span m base p m₁) :
    ReadsAs names held span m (.member site base prop)
      { p with steps := p.steps ++ [.key (names.lookup prop)] } m₁ :=
  h.step (by rw [eval]) rfl (fun hv => (property_iff span).mp hv)
    (fun hv => .inl ((property_iff span).mpr ⟨rfl, hv⟩)) nofun

theorem reads_item {site : Site} {mb : Machine} (h : ReadsAs names held span m base p mb)
    (hindex : ∀ us, eval names us index mb = .ok w m₁) (hk : w.key? = some k)
    (hback : mb.read names span p = m₁.read names span p) :
    ReadsAs names held span m (.index site base index) { p with steps := p.steps ++ [.key k] }
      m₁ := by
  have hkey : ∀ u, (eval names (u :: held) index >>= fun a => key a index.span) mb = .ok k m₁ :=
    fun u => eval_key index.span hk (hindex (u :: held))
  refine h.step (by rw [eval]) hback (fun {u v m₂} hv => ?_) (fun {u v} hv => .inl ?_) nofun
  · rw [← bind_assoc, bind_apply, hkey u] at hv
    exact (property_iff span).mp hv
  · rw [← bind_assoc, bind_apply, hkey u]
    exact (property_iff span).mpr ⟨rfl, hv⟩

theorem reads_entry {mb : Machine} (hget : names.lookup prop = "get")
    (h : ReadsAs names held span m base p mb)
    (hindex : ∀ us, eval names us index mb = .ok w m₁) (hk : w.key? = some k)
    (hback : mb.read names span p = m₁.read names span p) :
    ReadsAs names held span m (.call site (.member site' base prop) [index])
      { p with steps := p.steps ++ [.entry k] } m₁ := by
  refine h.step (eval_get hget) hback (fun {u v m₂} hv => ?_) (fun {u v} hv => ?_) (fun hv => ?_)
  · rw [bind_apply, hindex (u :: held)] at hv
    obtain ⟨-, rfl, rfl⟩ := (method_get_iff hk).mp hv
    exact ⟨rfl, rfl⟩
  · cases hv
    by_cases hmap : (m₁.store.mapEntries? u).isSome
    · left
      rw [bind_apply, hindex (u :: held)]
      exact (method_get_iff hk).mpr ⟨hmap, rfl, rfl⟩
    · exact .inr ⟨rfl, mapEntry_of_none hmap⟩
  · cases hv
    exact ⟨rfl, rfl⟩

theorem eval_and_read (hquiet : ∀ k ∈ e.keys, k.Quiet names)
    (hsound : m.store.Sound m.scopes.values) (hplace : place names held e m = .ok p m₁)
    (span : Span) : ReadsAs names held span m e p m₁ := by
  refine place_induct (P := fun e p m₁ => (∀ k ∈ e.keys, k.Quiet names) →
    ReadsAs names held span m e p m₁) ?_ ?_ ?_ ?_ hplace hquiet
  · exact fun site name _ => .root
  · exact fun site base prop q mb _ ih hquiet => reads_field (ih hquiet)
  · intro site base index q mb w m' k hbase hindex hk ih hquiet
    obtain ⟨hindex', hback⟩ := quiet_key hquiet hsound hbase hindex
    exact reads_item (ih fun k hk => hquiet k (List.mem_append_left _ hk)) hindex' hk hback
  · intro site site' base prop index q mb w m' k hget hbase hindex hk ih hquiet
    obtain ⟨hindex', hback⟩ := quiet_key hquiet hsound hbase hindex
    exact reads_entry hget (ih fun k hk => hquiet k (List.mem_append_left _ hk)) hindex' hk hback

/-- The two ways to read a target agree, whatever keys it has, as long as these write nothing. Once
its keys have been evaluated, its place can be read exactly if it can be evaluated as an expression;
then both give the same value and leave the same machine. -/
theorem readPlace_iff_eval (htarget : e.isTarget) (hquiet : ∀ k ∈ e.keys, k.Quiet names)
    (hsound : m.store.Sound m.scopes.values) (hplace : place names held e m = .ok p m₁)
    (span : Span) (v : Value) (m₂ : Machine) :
    readPlace names p span m₁ = .ok v m₂ ↔ eval names held e m = .ok v m₂ := by
  have hreads := eval_and_read hquiet hsound hplace span
  rw [Still.eq (still_readPlace p span), outcome_readPlace]
  constructor
  · intro h
    cases hv : m₁.read names span p with
    | error err =>
        rw [hv] at h
        cases h
    | ok w =>
        rw [hv] at h
        cases h
        obtain h | ⟨hnot, -⟩ := hreads.eval hv
        · exact h
        · rw [htarget] at hnot
          cases hnot
  · intro h
    obtain ⟨rfl, hv⟩ := hreads.read h
    rw [hv]

def shelfNames : NameTable := ⟨#["", "s", "shelf", "get", "tea", "label"]⟩

def shelfTarget : Expr :=
  .index default (.call default (.member default (.member default (.ident default ⟨1⟩) ⟨2⟩) ⟨3⟩)
    [.string default ⟨4⟩]) (.string default ⟨5⟩)

def shelfPlace : Place := ⟨⟨1⟩, [.key "shelf", .entry "tea", .key "label"]⟩

def stocked : Machine where
  store := ⟨#[⟨false, .record none (.ofList [("label", .text "Assam")])⟩,
    ⟨false, .map (.ofList [("tea", .node ⟨0⟩)])⟩,
    ⟨false, .record none (.ofList [("shelf", .node ⟨1⟩)])⟩]⟩
  scopes := [[(⟨1⟩, ⟨.node ⟨2⟩, true⟩)]]
  writes := []

theorem readPlace_iff_eval_shelf :
    place shelfNames [] shelfTarget stocked = .ok shelfPlace stocked ∧
      eval shelfNames [] shelfTarget stocked = .ok (.text "Assam") stocked ∧
      readPlace shelfNames shelfPlace default stocked = .ok (.text "Assam") stocked := by
  have hplace : place shelfNames [] shelfTarget stocked = .ok shelfPlace stocked := rfl
  have heval : eval shelfNames [] shelfTarget stocked = .ok (.text "Assam") stocked := rfl
  have hlayered : stocked.store.Layered := by decide
  refine ⟨hplace, heval, ?_⟩
  exact (readPlace_iff_eval rfl (by decide) (hlayered.sound (by decide)) hplace default
    (.text "Assam") stocked).mpr heval

end Run

end PathCopy
