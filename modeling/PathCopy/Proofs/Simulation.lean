import PathCopy.Proofs.Coupling
import PathCopy.Proofs.Matching

/-!
Simulation. A procedure runs twice, on a machine whose store mirrors another one and on the machine
with the other store, which may share more. Whenever the run with more sharing ends well, so does
the other one, and the stores mirror each other again.
-/

namespace PathCopy

open Store

/-- The machine `b` mirrors the machine `a`, which may share more. The values at hand on the two
sides are paired in `ps`. -/
structure Simulated (φ : Ref → Ref) (ps : List (Value × Value)) (b a : Machine) : Prop where
  pairs : ∀ {v w}, (v, w) ∈ ps → w = v.rename φ
  scopes : a.scopes = b.scopes.map (Value.rename φ)
  mirror : Mirror φ b.store a.store (b.scopes.values ++ ps.map Prod.fst)

/-- The machines mirror each other under some renaming. -/
def Corresponds (ps : List (Value × Value)) (b a : Machine) : Prop := ∃ φ, Simulated φ ps b a

/-- If the image of the value can be written, then so can the value, and nothing else has its
image. -/
def Permits (φ : Ref → Ref) (ps : List (Value × Value)) (b a : Machine) (counts counts' : Array Nat)
    (v : Value) : Prop :=
  ∀ t, v = .node t → a.store.Claimed counts' (φ t) → b.store.Claimed counts t ∧
    Sole φ b.store t (ps.map Prod.fst) ∧
    ∀ s, b.store.Reachable (b.scopes.values ++ ps.map Prod.fst) s → φ s = φ t → s = t

variable {φ : Ref → Ref} {ps qs : List (Value × Value)} {a b : Machine} {v w : Value} {t : Ref}
  {body : Body} {cs cs' : Array Nat} {held : List Value} {name : Name} {steps : List Step}

namespace Simulated

theorem within (h : (v, w) ∈ ps) :
    b.store.Within (b.scopes.values ++ ps.map Prod.fst) v :=
  within_of_mem (List.mem_append_right _ (List.mem_map.mpr ⟨_, h, rfl⟩))

/-- The values at hand may be any that the old ones lead to. -/
theorem rehold (h : Simulated φ ps b a) (hpairs : ∀ {v w}, (v, w) ∈ qs → w = v.rename φ)
    (hwithin : ∀ v w, (v, w) ∈ qs → b.store.Within (b.scopes.values ++ ps.map Prod.fst) v) :
    Simulated φ qs b a := by
  refine ⟨hpairs, h.scopes, h.mirror.mono fun u hu => ?_⟩
  rcases List.mem_append.mp hu with hu | hu
  · exact within_of_mem (List.mem_append_left _ hu)
  · obtain ⟨⟨v, w⟩, hmem, rfl⟩ := List.mem_map.mp hu
    exact hwithin v w hmem

theorem cons (h : Simulated φ ps b a)
    (hv : b.store.Within (b.scopes.values ++ ps.map Prod.fst) v) :
    Simulated φ ((v, v.rename φ) :: ps) b a := by
  refine h.rehold (fun hmem => ?_) fun u w hmem => ?_
  · rcases List.mem_cons.mp hmem with heq | hmem
    · cases heq
      rfl
    · exact h.pairs hmem
  · rcases List.mem_cons.mp hmem with heq | hmem
    · cases heq
      exact hv
    · exact within hmem

theorem rescope {bs as : Scopes} (h : Simulated φ ps b a) (hscopes : as = bs.map (Value.rename φ))
    (hvalues : ∀ u ∈ bs.values, u ∈ b.scopes.values ++ ps.map Prod.fst) (ws ws' : List Write) :
    Simulated φ ps ⟨b.store, bs, ws⟩ ⟨a.store, as, ws'⟩ := by
  refine ⟨h.pairs, hscopes, h.mirror.mono fun u hu => ?_⟩
  rcases List.mem_append.mp hu with hu | hu
  · exact within_of_mem (hvalues u hu)
  · exact within_of_mem (List.mem_append_right _ hu)

theorem write (h : Simulated φ ps b a)
    (ht : b.store.Reachable (b.scopes.values ++ ps.map Prod.fst) t)
    (hpermits : Permits φ ps b a cs cs' (.node t))
    (hclaimed : a.store.Claimed cs' (φ t))
    (hbody : ∀ c ∈ body.children, c ∈ b.store.children t ∨ c ∈ ps.map Prod.fst)
    (ws ws' : List Write) :
    Simulated φ ps ⟨b.store.setBody t body, b.scopes, ws⟩
      ⟨a.store.setBody (φ t) (body.rename φ), a.scopes, ws'⟩ := by
  obtain ⟨-, hsole, hunique⟩ := hpermits t rfl hclaimed
  refine ⟨h.pairs, h.scopes, h.mirror.setBody ht hunique fun c hc => ⟨?_, ?_⟩⟩
  · rcases hbody c hc with hc | hc
    · exact (within_node_iff.mpr ht).reaches (reaches_of_mem_children hc)
    · exact within_of_mem (List.mem_append_right _ hc)
  · exact hsole.alone c (List.mem_append.mpr (hbody c hc))

theorem follow (h : Simulated φ ps b a) (hheld : ps.map Prod.snd ⊆ held) {c : Binding}
    (hfind : b.scopes.find? name = some c)
    (hrun : a.store.follow (a.store.handles (a.scopes.values ++ held)) (c.value.rename φ) steps =
      .ok w) :
    ∃ v, b.store.follow (b.store.handles (b.scopes.values ++ ps.map Prod.fst)) c.value steps =
        .ok v ∧ w = v.rename φ ∧ b.store.Within (b.scopes.values ++ ps.map Prod.fst) v ∧
      Permits φ ps b a (b.store.handles (b.scopes.values ++ ps.map Prod.fst))
        (a.store.handles (a.scopes.values ++ held)) v := by
  obtain ⟨rest, hperm, -⟩ := Scopes.values_split hfind
  have hroots := hperm.append_right (ps.map Prod.fst)
  have hvalues : a.scopes.values.Perm (c.value.rename φ :: rest.map (Value.rename φ)) := by
    rw [h.scopes, Scopes.values_map]
    exact hperm.map _
  have hmatched : Matched φ b.store a.store (b.store.handles (b.scopes.values ++ ps.map Prod.fst))
      (a.store.handles (a.scopes.values ++ held)) c.value (rest ++ ps.map Prod.fst)
      (rest.map (Value.rename φ) ++ held) := by
    refine ⟨h.mirror.mono fun u hu => within_of_mem (hroots.symm.subset hu),
      (b.store.counted_handles _).perm hroots,
      (a.store.counted_handles _).perm (hvalues.append_right held), fun u hu => ?_⟩
    rcases List.mem_append.mp hu with hu | hu
    · exact List.mem_append_left _ (List.mem_map_of_mem hu)
    · obtain ⟨⟨u, u'⟩, hmem, rfl⟩ := List.mem_map.mp hu
      rw [← h.pairs hmem]
      exact List.mem_append_right _ (hheld (List.mem_map_of_mem (f := Prod.snd) hmem))
  obtain ⟨v, hfollow, rfl, hreach, hend⟩ := hmatched.follow hrun
  refine ⟨v, hfollow, rfl, ?_, fun t ht hclaimed => ?_⟩
  · exact (within_of_mem (hroots.symm.subset List.mem_cons_self)).reaches hreach
  · obtain ⟨hmine, hsole, hunique⟩ := hend t ht hclaimed
    refine ⟨hmine, fun u hu => hsole u ?_, fun s hs => hunique s (hs.mono hroots.subset)⟩
    rcases List.mem_append.mp hu with hu | hu
    · exact List.mem_append_left _ hu
    · exact List.mem_append_right _ (List.mem_append_right _ hu)

end Simulated

namespace Corresponds

theorem subset (h : Corresponds ps b a) (hsub : qs ⊆ ps) : Corresponds qs b a := by
  obtain ⟨φ, h⟩ := h
  exact ⟨φ, h.rehold (fun hmem => h.pairs (hsub hmem)) fun _ _ hmem =>
    Simulated.within (hsub hmem)⟩

theorem likeness (h : Corresponds ps b a) :
    b.store.Likeness a.store fun v w => Corresponds ((v, w) :: ps) b a where
  refl s := by
    obtain ⟨φ, h⟩ := h
    exact ⟨φ, h.cons (within_scalar s)⟩
  scalar := by
    rintro s w ⟨φ, h⟩
    exact h.pairs List.mem_cons_self
  node := by
    rintro r w ⟨φ, h⟩
    have hmem : (Value.node r, w) ∈ (.node r, w) :: ps := List.mem_cons_self
    have hr := Simulated.within (b := b) hmem
    cases h.pairs List.mem_cons_self
    refine ⟨φ r, rfl, ?_⟩
    rw [h.mirror.body (within_node_iff.mp hr)]
    refine Body.match_rename fun c hc => ?_
    have hcons := h.cons (hr.reaches (reaches_of_mem_children hc))
    exact subset ⟨φ, hcons⟩ (List.cons_subset_cons _ (List.subset_cons_self _ ps))

theorem find? (h : Corresponds ps b a) (name : Name) :
    Option.Rel (fun c d => d.assignable = c.assignable ∧ Corresponds ((c.value, d.value) :: ps) b a)
      (b.scopes.find? name) (a.scopes.find? name) := by
  obtain ⟨φ, h⟩ := h
  rw [h.scopes, Scopes.find?_map]
  cases hfind : b.scopes.find? name with
  | none => exact .none
  | some c =>
      refine .some ⟨rfl, φ, h.cons (within_of_mem (List.mem_append_left _ ?_))⟩
      exact Scopes.mem_values_of_find? hfind

theorem alloc {body body' : Body} (h : Corresponds (qs ++ ps) b a)
    (hbody : ∀ φ, (∀ p ∈ qs, p.2 = p.1.rename φ) → body' = body.rename φ)
    (hchildren : body.children ⊆ qs.map Prod.fst) :
    Corresponds (((b.store.alloc body).1, (a.store.alloc body').1) :: ps)
      { b with store := (b.store.alloc body).2 } { a with store := (a.store.alloc body').2 } := by
  obtain ⟨φ, h⟩ := h
  have heq := hbody φ fun p hp => h.pairs (List.mem_append_left ps hp)
  subst heq
  have hwithin : ∀ c ∈ body.children,
      b.store.Within (b.scopes.values ++ (qs ++ ps).map Prod.fst) c := by
    intro c hc
    obtain ⟨⟨c, d⟩, hmem, rfl⟩ := List.mem_map.mp (hchildren hc)
    exact Simulated.within (List.mem_append_left ps hmem)
  obtain ⟨ψ, hnew, hold, hmirror⟩ := h.mirror.alloc hwithin
  refine ⟨ψ, ?_, ?_, ?_⟩
  · intro u u' hmem
    rcases List.mem_cons.mp hmem with heq | hmem
    · cases heq
      exact congrArg Value.node hnew.symm
    · rw [hold u (Simulated.within (List.mem_append_right qs hmem))]
      exact h.pairs (List.mem_append_right qs hmem)
  · refine h.scopes.trans (Scopes.map_congr fun u hu => (hold u ?_).symm)
    exact within_of_mem (List.mem_append_left _ hu)
  · refine hmirror.mono fun u hu => within_of_mem ?_
    rw [List.mem_append, List.map_cons, List.mem_cons] at hu
    rw [List.map_append, List.mem_cons, List.mem_append, List.mem_append]
    tauto

theorem define (h : Corresponds ps b a) (hmem : (v, w) ∈ ps) (name : Name) (assignable : Bool) :
    Corresponds ps { b with scopes := b.scopes.define name ⟨v, assignable⟩ }
      { a with scopes := a.scopes.define name ⟨w, assignable⟩ } := by
  obtain ⟨φ, h⟩ := h
  cases h.pairs hmem
  refine ⟨φ, h.rescope ?_ (fun u hu => ?_) _ _⟩
  · rw [h.scopes]
    exact Scopes.define_map (b := ⟨v, assignable⟩)
  · rcases Scopes.mem_values_define hu with rfl | hu
    · exact List.mem_append_right _ (List.mem_map_of_mem hmem)
    · exact List.mem_append_left _ hu

theorem setValue (h : Corresponds ps b a) (hmem : (v, w) ∈ ps) (name : Name)
    (ws ws' : List Write) :
    Corresponds ps ⟨b.store, b.scopes.setValue name v, ws⟩
      ⟨a.store, a.scopes.setValue name w, ws'⟩ := by
  obtain ⟨φ, h⟩ := h
  cases h.pairs hmem
  refine ⟨φ, h.rescope ?_ (fun u hu => ?_) _ _⟩
  · rw [h.scopes]
    exact Scopes.setValue_map
  · rcases Scopes.mem_values_setValue hu with rfl | hu
    · exact List.mem_append_right _ (List.mem_map_of_mem hmem)
    · exact List.mem_append_left _ hu

theorem enter (h : Corresponds ps b a) :
    Corresponds ps { b with scopes := [] :: b.scopes } { a with scopes := [] :: a.scopes } := by
  obtain ⟨φ, h⟩ := h
  have hscopes : [] :: a.scopes = Scopes.map (Value.rename φ) ([] :: b.scopes) := by
    rw [h.scopes]
    rfl
  exact ⟨φ, h.rescope hscopes (fun u hu => List.mem_append_left _ hu) _ _⟩

theorem leave (h : Corresponds ps b a) :
    Corresponds ps { b with scopes := b.scopes.tail } { a with scopes := a.scopes.tail } := by
  obtain ⟨φ, h⟩ := h
  refine ⟨φ, h.rescope ?_ (fun u hu => List.mem_append_left _ (Scopes.mem_values_tail hu)) _ _⟩
  rw [h.scopes]
  exact List.map_tail.symm

end Corresponds

namespace Run

/-- The left run may do anything when the right one fails. -/
def Verdict.lenient : Verdict := ⟨fun _ _ => True, fun _ => trivial, fun _ _ => trivial⟩

variable {us ws : List Value} {span : Span}

/-- It is enough that the left attempt succeeds whenever the right one does. -/
theorem Attempts.of_ok {α β : Type} {x : Except WriteError α} {y : Except WriteError β}
    {R : α → β → Prop} (h : ∀ w, y = .ok w → ∃ v, x = .ok v ∧ R v w) :
    Attempts .lenient x y R := by
  cases y with
  | ok w => exact h w rfl
  | error e => exact fun _ => trivial

/-- The way of a write ends at a value and its image. -/
structure Reached (φ : Ref → Ref) (ps : List (Value × Value)) (us ws : List Value) (b a : Machine)
    (v w : Value) : Prop where
  simulated : Simulated φ ps b a
  image : w = v.rename φ
  within : b.store.Within (b.scopes.values ++ ps.map Prod.fst) v
  permits : Permits φ ps b a (counts us b) (counts ws a) v

namespace Reached

variable {new new' : Value} {st' : Store}

theorem body_eq (h : Reached φ ps us ws b a (.node t) w) :
    a.store.body (φ t) = (b.store.body t).rename φ :=
  h.simulated.mirror.body (within_node_iff.mp h.within)

theorem claimed (h : Reached φ ps us ws b a (.node t) w)
    (hclaimed : a.store.Claimed (counts ws a) (φ t)) : b.store.Claimed (counts us b) t :=
  (h.permits t rfl hclaimed).1

theorem write (h : Reached φ ps us ws b a (.node t) w)
    (hclaimed : a.store.Claimed (counts ws a) (φ t))
    (hbody : ∀ c ∈ body.children, c ∈ b.store.children t ∨ c ∈ ps.map Prod.fst)
    (writes writes' : List Write) :
    Simulated φ ps ⟨b.store.setBody t body, b.scopes, writes⟩
      ⟨a.store.setBody (φ t) (body.rename φ), a.scopes, writes'⟩ :=
  h.simulated.write (within_node_iff.mp h.within) h.permits hclaimed hbody writes writes'

theorem setKey (h : Reached φ ps us ws b a v w) (hmem : (new, new') ∈ ps) (k : String)
    (hset : a.store.setKey (counts ws a) w k new' = .ok st') :
    ∃ st, b.store.setKey (counts us b) v k new = .ok st ∧ ∀ writes writes',
      Corresponds ps ⟨st, b.scopes, writes⟩ ⟨st', a.scopes, writes'⟩ := by
  cases h.image
  cases h.simulated.pairs hmem
  cases v with
  | scalar s => cases hset
  | node t =>
      obtain ⟨body, hset', rfl, hclaimed, hbody⟩ := setKey_rename h.body_eq h.claimed hset
      refine ⟨_, hset', fun writes writes' => ⟨φ, h.write hclaimed (fun c hc => ?_) _ _⟩⟩
      rcases hbody c hc with hc | rfl
      · exact .inl hc
      · exact .inr (List.mem_map_of_mem hmem)

theorem mapSet (h : Reached φ ps us ws b a v w) (hmem : (new, new') ∈ ps) (k : String)
    (hset : a.store.mapSet (counts ws a) w k new' = .ok st') :
    ∃ st, b.store.mapSet (counts us b) v k new = .ok st ∧ ∀ writes writes',
      Corresponds ((v, w) :: ps) ⟨st, b.scopes, writes⟩ ⟨st', a.scopes, writes'⟩ := by
  cases h.image
  cases h.simulated.pairs hmem
  cases v with
  | scalar s => cases hset
  | node t =>
      obtain ⟨body, hset', rfl, hclaimed, hbody⟩ := mapSet_rename h.body_eq h.claimed hset
      refine ⟨_, hset', fun writes writes' => ⟨φ, ?_⟩⟩
      refine (h.write hclaimed (fun c hc => ?_) writes writes').cons ?_
      · rcases hbody c hc with hc | rfl
        · exact .inl hc
        · exact .inr (List.mem_map_of_mem hmem)
      · obtain ⟨r, hr, hrt⟩ := within_node_iff.mp h.within
        exact .inr ⟨r, hr, hrt.setBody_target body⟩

theorem mapDelete {y : Bool × Store} (h : Reached φ ps us ws b a v w) (k : String)
    (hdelete : a.store.mapDelete (counts ws a) w k = .ok y) :
    ∃ x, b.store.mapDelete (counts us b) v k = .ok x ∧ x.1 = y.1 ∧ ∀ writes writes',
      Corresponds ps ⟨x.2, b.scopes, writes⟩ ⟨y.2, a.scopes, writes'⟩ := by
  obtain ⟨removed, st'⟩ := y
  cases h.image
  cases v with
  | scalar s => cases hdelete
  | node t =>
      obtain ⟨body, hdelete', rfl, hclaimed, hbody⟩ := mapDelete_rename h.body_eq h.claimed hdelete
      exact ⟨_, hdelete', rfl, fun writes writes' =>
        ⟨φ, h.write hclaimed (fun c hc => .inl (hbody c hc)) _ _⟩⟩

end Reached

/-- Machines that mirror each other are coupled. The left machine holds nothing but the values at
hand; the right one may hold more. -/
def mirroring : Coupling where
  verdict := .lenient
  Corr := Corresponds
  subset h := h.subset
  likeness h := h.likeness
  joined := by
    rintro ps b a v w ⟨φ, h⟩ hmem
    cases h.pairs hmem
    exact h.mirror.joined_eq (Simulated.within hmem)
  find h := h.find?
  list {ps qs b a} h := by
    refine h.alloc (fun φ hqs => ?_) (List.Subset.refl _)
    rw [Body.rename, List.map_map]
    exact congrArg Body.list (List.map_congr_left hqs)
  record {ps b a t} h := by
    refine h.alloc (fun φ hqs => ?_) ?_
    · refine congrArg (Body.record none) (Table.eq_of_entries ?_)
      simp only [Table.entries_map, List.map_map]
      refine List.map_congr_left fun e he => congrArg (Prod.mk e.1) ?_
      exact hqs e.2 (List.mem_map_of_mem he)
    · rw [Body.children, Table.values_map]
      exact List.Subset.refl _
  define h := h.define
  setValue h := h.setValue
  enter h := h.enter
  leave h := h.leave
  Held ps us ws := us = ps.map Prod.fst ∧ ps.map Prod.snd ⊆ ws
  held := by
    rintro ps us ws ⟨rfl, hws⟩ qs
    rw [List.map_append, List.map_append]
    exact ⟨rfl, List.append_subset.mpr ⟨List.subset_append_left _ ws,
      List.subset_append_of_subset_right _ hws⟩⟩
  End ps us ws b a v w := ∃ φ, Reached φ ps us ws b a v w
  follow := by
    rintro ps us ws b a name c d ⟨rfl, hws⟩ ⟨φ, h⟩ hb ha steps
    rw [h.scopes, Scopes.find?_map, hb] at ha
    cases ha
    refine .of_ok fun w hw => ?_
    obtain ⟨v, hfollow, himage, hwithin, hpermits⟩ := h.follow hws hb hw
    exact ⟨v, hfollow, φ, h, himage, hwithin, hpermits⟩
  reached := by
    rintro ps us ws b a v w ⟨φ, h⟩
    cases h.image
    exact ⟨φ, h.simulated.cons h.within⟩
  setKey := by
    rintro ps us ws b a v w new new' ⟨φ, h⟩ hmem k
    exact .of_ok fun _ => h.setKey hmem k
  mapSet := by
    rintro ps us ws b a v w new new' ⟨φ, h⟩ hmem k
    exact .of_ok fun _ => h.mapSet hmem k
  mapDelete := by
    rintro ps us ws b a v w ⟨φ, h⟩ k
    exact .of_ok fun _ => h.mapDelete k

end Run

end PathCopy
