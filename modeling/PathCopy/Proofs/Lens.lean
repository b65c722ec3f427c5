import PathCopy.Proofs.Lookups

/-!
Writes to places as seen by reads. A write that goes through is read back where it was made, and it
is seen at no place that starts at another variable or parts from the written one, since no
container on the way of the write has another handle. There is one exception: an item that is
appended to a list makes the list longer. A write that fails is seen nowhere.
-/

namespace PathCopy

/-- Two rows of steps part: they have different steps somewhere. -/
def Parted (steps others : List Step) : Prop :=
  ∃ (i : ℕ) (s o : Step), steps[i]? = some s ∧ others[i]? = some o ∧ s ≠ o

namespace Place

/-- The place starts at another variable, or its steps part. -/
def Parts (p q : Place) : Prop := q.root ≠ p.root ∨ Parted p.steps q.steps

def container (p : Place) : Place := ⟨p.root, p.steps.dropLast⟩

def length (p : Place) : Place := ⟨p.root, p.steps ++ [.key "length"]⟩

/-- The place stands right behind the items of a list, so that a write to it appends an item. -/
def Appends (p : Place) (names : NameTable) (span : Span) (m : Machine) : Prop :=
  ∃ t items k, m.read names span p.container = .ok (.node t) ∧ m.store.body t = .list items ∧
    p.steps.getLast? = some (.key k) ∧ Number.readIndex? k = some items.length

end Place

variable {steps others : List Step} {step other : Step}

/-- A row of steps that parts from another one does so at its first step or after it. -/
theorem Parted.cases (h : Parted (step :: steps) others) :
    ∃ o rest, others = o :: rest ∧ (o ≠ step ∨ Parted steps rest) := by
  obtain ⟨i, s, o, hs, ho, hne⟩ := h
  cases others with
  | nil => cases ho
  | cons o' rest =>
      refine ⟨o', rest, rfl, ?_⟩
      cases i with
      | zero =>
          cases hs
          cases ho
          exact .inl hne.symm
      | succ i => exact .inr ⟨i, s, o, hs, ho, hne⟩

theorem not_parted_nil : ¬ Parted [] others := by
  rintro ⟨i, s, o, hs, -⟩
  cases hs

namespace Body

variable {body body' : Body} {key : String} {new : Value}

theorem Assigned.find_self (h : body.Assigned key new body') : body'.find (.key key) = new := by
  have hstep : body'.stepTo key = .key key := by
    cases h <;> rfl
  rw [← hstep]
  exact find_stepTo (h.differs.present new (List.mem_singleton_self new))

/-- Another step finds what it found before, unless it finds the length of a list that grows. -/
theorem Assigned.find_of_ne (h : body.Assigned key new body') (hne : step ≠ .key key) :
    body'.find step = body.find step ∨ step = .key "length" ∧
      ∃ items, body = .list items ∧ Number.readIndex? key = some items.length := by
  cases step with
  | entry k =>
      left
      cases h <;> rfl
  | key k =>
      have hk : k ≠ key := fun he => hne (congrArg Step.key he)
      have hchild := h.differs.child k hk
      cases h with
      | field cls fields => exact .inl (congrArg (Option.getD · Value.undefined) hchild)
      | @item items i index lt =>
          left
          by_cases hlength : k = "length"
          · simp [find, property, get?, hlength]
          · simp only [find, property, get?, if_neg hlength, hchild]
      | @append items index =>
          by_cases hlength : k = "length"
          · exact .inr ⟨congrArg Step.key hlength, items, rfl, index⟩
          · left
            simp only [find, property, get?, if_neg hlength, hchild]

end Body

namespace Store

variable {st st' : Store} {counts : Array Nat} {span : Span} {v w new : Value}
  {values rest : List Value} {r t : Ref} {key : String} {body : Body}

theorem read_number_cons (x y : Float) :
    st'.read span (.number x) (step :: steps) = st.read span (.number y) (step :: steps) := by
  have hstep : ∀ (st : Store) (x : Float), st.readStep span (.number x) step = .ok .undefined := by
    intro st x
    cases step <;> rfl
  rw [read, read, hstep, hstep]
  exact (agreeBelow_scalar st st' .undefined).read_eq

/-- What is read at the written container: the new value under its key, and what was there before
under every other step but the length of a list that grows. -/
theorem read_assigned (ht : st.Claimed counts t) (hcounted : st.Counted counts (.node t :: rest))
    (hassigned : (st.body t).Assigned key new body) (hne : step ≠ .key key)
    (hlength : ∀ items, st.body t = .list items → Number.readIndex? key = some items.length →
      step :: steps ≠ [.key "length"]) :
    (st.setBody t body).read span (.node t) (step :: steps) =
      st.read span (.node t) (step :: steps) := by
  rw [read, read, readStep_node, readStep_node, body_setBody_self ht.index_lt]
  obtain hsame | ⟨rfl, items, hitems, hindex⟩ := hassigned.find_of_ne hne
  · rw [hsame]
    refine AgreeBelow.read_eq (v := (st.body t).find step) ?_
    obtain ⟨a, ha⟩ | ⟨-, hchild⟩ := (st.body t).find_cases step
    · rw [ha]
      exact agreeBelow_scalar _ _ a
    · refine agreeBelow_setBody (hcounted.alone ht.index_lt ht.sole _ ?_)
      exact List.mem_append_left _ (Body.mem_children_of_child? hchild)
  · cases steps with
    | nil => exact absurd rfl (hlength items hitems hindex)
    | cons s steps =>
        have hgrown : body = .list (items ++ [new]) := by
          rw [hitems] at hassigned
          cases hassigned with
          | item index lt =>
              rw [hindex] at index
              cases index
              exact absurd lt (Nat.lt_irrefl _)
          | append index => rfl
        rw [hgrown, hitems]
        exact read_number_cons _ _

/-- An assignment at the end of a way of single handles is read back there, and it is seen nowhere
else from where the way starts. -/
theorem read_follow (span : Span) (hfollow : st.follow counts v steps = .ok (.node t))
    (ht : st.Claimed counts t) (hcounted : st.Counted counts (v :: rest))
    (hassigned : (st.body t).Assigned key new body) :
    (st.setBody t body).read span v (steps ++ [.key key]) = .ok new ∧
    ∀ q, Parted (steps ++ [.key key]) q →
      (∀ items, st.body t = .list items → Number.readIndex? key = some items.length →
        q ≠ steps ++ [.key "length"]) →
      (st.setBody t body).read span v q = st.read span v q := by
  -- What stands beside the way joins the roots at every step, so all handles stay counted.
  induction steps generalizing v rest with
  | nil =>
      cases hfollow
      constructor
      · rw [List.nil_append, read, readStep_node, body_setBody_self ht.index_lt,
          hassigned.find_self]
        rfl
      · intro q hq hlength
        obtain ⟨o, q, rfl, hne | hrest⟩ := hq.cases
        · exact read_assigned ht hcounted hassigned hne hlength
        · exact absurd hrest not_parted_nil
  | cons step steps ih =>
      obtain ⟨w, hchild, hrest⟩ := except_bind_ok hfollow
      obtain ⟨r, rfl, hclaimed, hstep, hchild⟩ := readStep_of_child hchild
      obtain ⟨siblings, -, hcounted', halone, hsiblings⟩ := hcounted.descend hclaimed hchild
      have hchain := chain_of_follow hrest
      -- Nothing below a node of the way leads back to it.
      have hne : r ≠ t := by
        rintro rfl
        exact halone w (List.mem_append_left _ (Body.mem_children_of_child? hchild)) hchain.reaches
      have hfind : (st.body r).find step = w := by
        rw [hstep]
        exact Body.find_stepTo hchild
      obtain ⟨hself, hothers⟩ := ih hrest hcounted'
      constructor
      · rw [List.cons_append, read, readStep_node, body_setBody_of_ne hne, hfind]
        exact hself
      · intro q hq hlength
        obtain ⟨o, q, rfl, hpart⟩ := hq.cases
        rw [read, read, readStep_node, readStep_node, body_setBody_of_ne hne]
        by_cases ho : o = step
        · subst ho
          rw [hfind]
          refine hothers q (hpart.resolve_left fun h => h rfl) fun items hitems hindex he => ?_
          exact hlength items hitems hindex (by rw [he]; rfl)
        · -- What another step finds stands beside the way, so the written container is not below.
          refine AgreeBelow.read_eq (v := (st.body r).find o) ?_
          obtain ⟨a, ha⟩ | ⟨hto, hbeside⟩ := (st.body r).find_cases o
          · rw [ha]
            exact agreeBelow_scalar _ _ a
          · have htext : o.text ≠ step.text := by
              intro he
              rw [he, ← hstep] at hto
              exact ho hto
            refine agreeBelow_setBody (hchain.alone ht hcounted' _ (List.mem_append_right _ ?_))
            exact List.mem_append_left _ (hsiblings o.text _ htext hbeside)

end Store

namespace Run

variable {names : NameTable} {held : List Value} {m m' : Machine} {v : Value} {span : Span}
  {p : Place}

theorem read_of_writePlace {u : Unit} (h : writePlace names held p v span m = .ok u m')
    (at' : Span) :
    m'.read names at' p = .ok v ∧
    ∀ q, p.Parts q → ¬ (p.Appends names span m ∧ q = p.container.length) →
      m'.read names at' q = m.read names at' q := by
  obtain ⟨hsteps, b, hb, -, rfl⟩ | ⟨steps, k, b, container, st, hsteps, hb, hfollow, hset, rfl⟩ :=
    writePlace_cases h
  · constructor
    · simp only [Machine.read, Scopes.find?_setValue, if_true, hb, Option.map_some, hsteps]
      rfl
    · rintro q (hroot | hparted) -
      · simp only [Machine.read, Scopes.find?_setValue, if_neg hroot]
      · rw [hsteps] at hparted
        exact absurd hparted not_parted_nil
  · obtain ⟨t, body, rfl, ht, hassigned, rfl⟩ := Store.setKey_cases hset
    obtain ⟨others, hcounted, hheld, hothers⟩ := counted_others hb (v :: held)
    have hread := Store.read_follow at' hfollow ht hcounted hassigned
    constructor
    · simp only [Machine.read, hb, hsteps]
      exact hread.1
    · intro q hq hlength
      simp only [Machine.read]
      -- Another variable does not lead to the container, as each node of the way has one handle.
      by_cases hroot : q.root = p.root
      · have hparted := hq.resolve_left fun hne => hne hroot
        rw [hroot, hb]
        refine hread.2 q.steps (hsteps ▸ hparted) fun items hitems hindex he => hlength ⟨?_, ?_⟩
        · refine ⟨t, items, k, ?_, hitems, by simp [hsteps], hindex⟩
          simp only [Machine.read, Place.container, hb, hsteps, List.dropLast_concat]
          exact Store.read_of_follow hfollow
        · obtain ⟨root, steps'⟩ := q
          cases hroot
          cases he
          simp [Place.container, Place.length, hsteps]
      · cases hc : m.scopes.find? q.root with
        | none => rfl
        | some c =>
            refine (Store.agreeBelow_setBody ?_).read_eq
            exact (Store.chain_of_follow hfollow).alone ht hcounted _
              (List.mem_append_right _ (hothers _ c hroot hc))

/-- Writes and reads of places make a lens. A write that goes through gives back the value that was
written, and leaves every place that starts at another variable or parts from the written one as it
was: there is the same value, or the same failure. Only the length of a list may be seen to change,
by a write that appends an item to this list. A write that fails leaves every place as it was. -/
theorem writePlace_lens (names : NameTable) (held : List Value) (p : Place) (v : Value)
    (span : Span) (m : Machine) :
    match writePlace names held p v span m with
    | .ok _ m' =>
      (∀ reader, readPlace names p reader m' = .ok v m') ∧
      ∀ q reader, p.Parts q → ¬ (p.Appends names span m ∧ q = p.container.length) →
        outcome (readPlace names q reader) m' = outcome (readPlace names q reader) m
    | .error _ m' =>
      ∀ q reader, outcome (readPlace names q reader) m' = outcome (readPlace names q reader) m := by
  cases hwrite : writePlace names held p v span m with
  | error e m' =>
      cases guarded_writePlace m e m' hwrite
      exact fun q reader => rfl
  | ok u m' =>
      constructor
      · intro reader
        have hread := (read_of_writePlace hwrite reader).1
        rw [Still.eq (still_readPlace p reader), outcome_readPlace, hread]
      · intro q reader hq hlength
        rw [outcome_readPlace, outcome_readPlace]
        exact (read_of_writePlace hwrite reader).2 q hq hlength

/-- A machine with a record that holds a list, and a second name for the owner of the list. -/
def groceries : Machine where
  store := ⟨#[⟨false, .list [.text "bread"]⟩,
    ⟨false, .record none (.ofList [("items", .node ⟨0⟩), ("owner", .text "Ada")])⟩]⟩
  scopes := [[(⟨1⟩, ⟨.node ⟨1⟩, true⟩), (⟨2⟩, ⟨.text "Ada", false⟩)]]
  writes := []

theorem writePlace_lens_groceries :
    ∃ m', writePlace ⟨#[]⟩ [] ⟨⟨1⟩, [.key "items", .key "1"]⟩ (.text "milk") default groceries =
        .ok () m' ∧
      readPlace ⟨#[]⟩ ⟨⟨1⟩, [.key "items", .key "1"]⟩ default m' = .ok (.text "milk") m' ∧
      (∀ q ∈ [(⟨⟨2⟩, []⟩ : Place), ⟨⟨1⟩, [.key "owner"]⟩, ⟨⟨1⟩, [.key "items", .key "0"]⟩],
        outcome (readPlace ⟨#[]⟩ q default) m' = outcome (readPlace ⟨#[]⟩ q default) groceries) ∧
      (⟨⟨1⟩, [.key "items", .key "1"]⟩ : Place).Appends ⟨#[]⟩ default groceries := by
  have hok : (outcome (writePlace ⟨#[]⟩ [] ⟨⟨1⟩, [.key "items", .key "1"]⟩ (.text "milk") default)
      groceries).toOption.isSome := by decide +kernel
  have hlens := writePlace_lens ⟨#[]⟩ [] ⟨⟨1⟩, [.key "items", .key "1"]⟩ (.text "milk") default
    groceries
  rw [outcome] at hok
  cases hwrite : writePlace ⟨#[]⟩ [] ⟨⟨1⟩, [.key "items", .key "1"]⟩ (.text "milk") default
      groceries with
  | error e m' =>
      rw [hwrite] at hok
      cases hok
  | ok u m' =>
      rw [hwrite] at hlens
      refine ⟨m', rfl, hlens.1 default, ?_, ⟨0⟩, [.text "bread"], "1", rfl, rfl, rfl, by decide⟩
      intro q hq
      refine hlens.2 q default ?_ fun h => ?_
      · simp only [List.mem_cons, List.not_mem_nil, or_false] at hq
        obtain rfl | rfl | rfl := hq
        · exact .inl (by decide)
        · exact .inr ⟨0, _, _, rfl, rfl, by decide⟩
        · exact .inr ⟨1, _, _, rfl, rfl, by decide⟩
      · rw [h.2] at hq
        simp [Place.container, Place.length] at hq

end Run

end PathCopy
