import PathCopy.Proofs.TwinWrites

/-!
Twin runs. Two machines whose stores are parallel and whose scopes bind twins stay so, whatever the
procedure does: the two runs make the same nodes, write the same nodes, and fail alike.
-/

namespace PathCopy

open Store

/-! ### Scopes that match -/

/-- The scopes bind the same names in the same order, to related values. -/
def Scope.Match (R : Value → Value → Prop) (s s' : Scope) : Prop :=
  List.Forall₂ (fun e e' => e'.1 = e.1 ∧ e'.2.assignable = e.2.assignable ∧
    R e.2.value e'.2.value) s s'

def Scopes.Match (R : Value → Value → Prop) (ss ss' : Scopes) : Prop :=
  List.Forall₂ (Scope.Match R) ss ss'

def Binding.Match (R : Value → Value → Prop) (b b' : Binding) : Prop :=
  b'.assignable = b.assignable ∧ R b.value b'.value

section Match

variable {R S : Value → Value → Prop} {s s' : Scope} {ss ss' : Scopes} {b b' : Binding}
  {v v' : Value}

theorem Binding.match_of_value (h : R v v') (assignable : Bool) :
    Binding.Match R ⟨v, assignable⟩ ⟨v', assignable⟩ :=
  ⟨rfl, h⟩

namespace Scope.Match

theorem mono (h : s.Match R s') (himp : ∀ v v', R v v' → S v v') : s.Match S s' :=
  h.imp fun _ _ he => ⟨he.1, he.2.1, himp _ _ he.2.2⟩

theorem find? (h : s.Match R s') (name : Name) :
    Option.Rel (Binding.Match R) (s.find? name) (s'.find? name) := by
  induction h with
  | nil => exact .none
  | @cons e e' _ _ he _ ih =>
      rw [Scope.find?, Scope.find?, he.1]
      split
      · exact .some he.2
      · exact ih

theorem put (h : s.Match R s') (hb : b.Match R b') (name : Name) :
    (s.put name b).Match R (s'.put name b') := by
  induction h with
  | nil => exact .cons ⟨rfl, hb⟩ .nil
  | @cons e e' _ _ he hrest ih =>
      rw [Scope.put, Scope.put, he.1]
      split
      · exact .cons ⟨rfl, hb⟩ hrest
      · exact .cons ⟨rfl, he.2⟩ ih

theorem values (h : s.Match R s') :
    List.Forall₂ R (List.map (fun e => e.2.value) s) (List.map (fun e => e.2.value) s') := by
  rw [List.forall₂_map_left_iff, List.forall₂_map_right_iff]
  exact h.imp fun _ _ he => he.2.2

end Scope.Match

namespace Scopes.Match

theorem mono (h : ss.Match R ss') (himp : ∀ v v', R v v' → S v v') : ss.Match S ss' :=
  h.imp fun _ _ hs => hs.mono himp

theorem find? (h : ss.Match R ss') (name : Name) :
    Option.Rel (Binding.Match R) (ss.find? name) (ss'.find? name) := by
  induction h with
  | nil => exact .none
  | @cons s s' _ _ hs _ ih =>
      rw [Scopes.find?, Scopes.find?]
      have hfound := hs.find? name
      generalize s.find? name = found, s'.find? name = found' at hfound ⊢
      cases hfound with
      | none => exact ih
      | some hb => exact .some hb

theorem define (h : ss.Match R ss') (hb : b.Match R b') (name : Name) :
    (ss.define name b).Match R (ss'.define name b') := by
  cases h with
  | nil => exact .nil
  | cons hs hrest => exact .cons (hs.put hb name) hrest

theorem setValue (h : ss.Match R ss') (hv : R v v') (name : Name) :
    (ss.setValue name v).Match R (ss'.setValue name v') := by
  induction h with
  | nil => exact .nil
  | @cons s s' _ _ hs hrest ih =>
      rw [Scopes.setValue, Scopes.setValue]
      have hfound := hs.find? name
      generalize s.find? name = found, s'.find? name = found' at hfound ⊢
      cases hfound with
      | none => exact .cons hs ih
      | @some c d hb =>
          have hset : Binding.Match R { c with value := v } { d with value := v' } := ⟨hb.1, hv⟩
          exact .cons (hs.put hset name) hrest

theorem tail (h : ss.Match R ss') : Scopes.Match R ss.tail ss'.tail := by
  cases h with
  | nil => exact .nil
  | cons _ hrest => exact hrest

theorem values (h : ss.Match R ss') : List.Forall₂ R ss.values ss'.values := by
  induction h with
  | nil => exact .nil
  | cons hs _ ih =>
      rw [values_cons, values_cons]
      exact List.rel_append hs.values ih

end Scopes.Match

end Match

/-! ### Machines -/

/-- The stores are parallel, with `n` new nodes each; what the machines bind and what is at hand are
twins. -/
structure Twinned (o o' : Origin) (n : ℕ) (ps : List (Value × Value)) (b a : Machine) : Prop where
  parallel : Parallel o o' n b.store a.store
  scopes : b.scopes.Match (Twin o o' n) a.scopes
  pairs : ∀ p ∈ ps, Twin o o' n p.1 p.2

/-- The machines are twinned, with some number of new nodes. -/
def Abreast (o o' : Origin) (ps : List (Value × Value)) (b a : Machine) : Prop :=
  ∃ n, Twinned o o' n ps b a

variable {o o' : Origin} {n : ℕ} {ps qs : List (Value × Value)} {b a : Machine} {v w : Value}
  {body body' : Body}

namespace Twinned

theorem cons (h : Twinned o o' n ps b a) (hvw : Twin o o' n v w) :
    Twinned o o' n ((v, w) :: ps) b a :=
  { h with pairs := List.forall_mem_cons.mpr ⟨hvw, h.pairs⟩ }

theorem forall₂_pairs (h : Twinned o o' n ps b a) :
    List.Forall₂ (Twin o o' n) (ps.map Prod.fst) (ps.map Prod.snd) := by
  rw [List.forall₂_map_left_iff, List.forall₂_map_right_iff, List.forall₂_same]
  exact h.pairs

theorem alloc (h : Twinned o o' n ps b a) (hbody : body.Match (Twin o o' n) body') :
    Twinned o o' (n + 1) (((b.store.alloc body).1, (a.store.alloc body').1) :: ps)
      { b with store := (b.store.alloc body).2 } { a with store := (a.store.alloc body').2 } := by
  have hmono : ∀ v w, Twin o o' n v w → Twin o o' (n + 1) v w := fun _ _ hvw =>
    hvw.mono (Nat.le_succ n)
  obtain ⟨hparallel, htwin⟩ := h.parallel.alloc hbody
  exact ⟨hparallel, h.scopes.mono hmono,
    List.forall_mem_cons.mpr ⟨htwin, fun p hp => hmono _ _ (h.pairs p hp)⟩⟩

end Twinned

namespace Abreast

theorem subset (h : Abreast o o' ps b a) (hsub : qs ⊆ ps) : Abreast o o' qs b a := by
  obtain ⟨n, h⟩ := h
  exact ⟨n, { h with pairs := fun p hp => h.pairs p (hsub hp) }⟩

theorem likeness (h : Abreast o o' ps b a) :
    b.store.Likeness a.store fun v w => Abreast o o' ((v, w) :: ps) b a where
  refl s := by
    obtain ⟨n, h⟩ := h
    exact ⟨n, h.cons (.scalar s)⟩
  scalar := by
    rintro s w ⟨n, h⟩
    exact h.parallel.likeness.scalar (h.pairs _ List.mem_cons_self)
  node := by
    rintro r w ⟨n, h⟩
    obtain ⟨s, rfl, hmatch⟩ := h.parallel.likeness.node (h.pairs _ List.mem_cons_self)
    refine ⟨s, rfl, hmatch.mono fun c _ d _ hcd => ?_⟩
    exact subset ⟨n, h.cons hcd⟩ (List.cons_subset_cons _ (List.subset_cons_self _ ps))

theorem find? (h : Abreast o o' ps b a) (name : Name) :
    Option.Rel
      (fun c d => d.assignable = c.assignable ∧ Abreast o o' ((c.value, d.value) :: ps) b a)
      (b.scopes.find? name) (a.scopes.find? name) := by
  obtain ⟨n, h⟩ := h
  have hfound := h.scopes.find? name
  generalize b.scopes.find? name = found, a.scopes.find? name = found' at hfound ⊢
  cases hfound with
  | none => exact .none
  | some hc => exact .some ⟨hc.1, n, h.cons hc.2⟩

theorem alloc (h : Abreast o o' (qs ++ ps) b a)
    (hbody : ∀ n, (∀ p ∈ qs, Twin o o' n p.1 p.2) → body.Match (Twin o o' n) body') :
    Abreast o o' (((b.store.alloc body).1, (a.store.alloc body').1) :: ps)
      { b with store := (b.store.alloc body).2 } { a with store := (a.store.alloc body').2 } := by
  obtain ⟨n, h⟩ := h
  have hnew := h.alloc (hbody n fun p hp => h.pairs p (List.mem_append_left ps hp))
  exact subset ⟨n + 1, hnew⟩ (List.cons_subset_cons _ (List.subset_append_right qs ps))

theorem rescope (h : Abreast o o' ps b a) {ss ss' : Scopes} {writes writes' : List Write}
    (hscopes : ∀ n, (∀ p ∈ ps, Twin o o' n p.1 p.2) → b.scopes.Match (Twin o o' n) a.scopes →
      ss.Match (Twin o o' n) ss') :
    Abreast o o' ps ⟨b.store, ss, writes⟩ ⟨a.store, ss', writes'⟩ := by
  obtain ⟨n, h⟩ := h
  exact ⟨n, h.parallel, hscopes n h.pairs h.scopes, h.pairs⟩

end Abreast

namespace Run

/-- Both machines hold the values at hand and what their callers hold. -/
structure Holds (o o' : Origin) (ps : List (Value × Value)) (us ws : List Value) : Prop where
  left : us = ps.map Prod.fst ++ o.kept
  right : ws = ps.map Prod.snd ++ o'.kept

/-- Two writes under way on machines that are twinned. -/
structure Meets (o o' : Origin) (n : ℕ) (ps : List (Value × Value)) (us ws : List Value)
    (b a : Machine) (v w : Value) : Prop where
  holds : Holds o o' ps us ws
  twinned : Twinned o o' n ps b a
  aimed : Aimed o o' n b.store a.store (counts us b) (counts ws a) us ws v w

namespace Meets

variable {us ws : List Value} {new new' : Value} {k : String}

/-- The handles are counted on both sides, and the writes start at the values of one variable. -/
theorem start (hholds : Holds o o' ps us ws) (h : Twinned o o' n ps b a) {name : Name}
    {c d : Binding} (hb : b.scopes.find? name = some c) (ha : a.scopes.find? name = some d) :
    Meets o o' n ps us ws b a c.value d.value := by
  have hfound := h.scopes.find? name
  rw [hb, ha] at hfound
  obtain ⟨others, hcounted, hus, -⟩ := counted_others hb us
  obtain ⟨others', hcounted', hws, -⟩ := counted_others ha ws
  refine ⟨hholds, h, h.parallel, fun i hi => ?_, ?_, ?_, ?_, ⟨others, hus, hcounted⟩,
    ⟨others', hws, hcounted'⟩⟩
  · rw [counts, counts, hholds.left, hholds.right, ← List.append_assoc, ← List.append_assoc]
    exact h.parallel.handles_eq (List.rel_append h.scopes.values h.forall₂_pairs) hi
  · rw [hholds.left]
    exact List.subset_append_right _ _
  · rw [hholds.right]
    exact List.subset_append_right _ _
  · cases hfound with
    | some hcd => exact hcd.2

theorem mem (h : Meets o o' n ps us ws b a v w) (hmem : (new, new') ∈ ps) :
    new ∈ us ∧ new' ∈ ws ∧ Twin o o' n new new' := by
  rw [h.holds.left, h.holds.right]
  exact ⟨List.mem_append_left _ (List.mem_map_of_mem (f := Prod.fst) hmem),
    List.mem_append_left _ (List.mem_map_of_mem (f := Prod.snd) hmem), h.twinned.pairs _ hmem⟩

end Meets

/-- Twinned machines are coupled, and fail alike. -/
def twinning (o o' : Origin) : Coupling where
  verdict := .strict
  Corr := Abreast o o'
  subset h := h.subset
  likeness h := h.likeness
  joined := by
    rintro ps b a v w ⟨n, h⟩ hmem
    exact h.parallel.joined_eq (h.pairs _ hmem)
  find h := h.find?
  list {ps qs b a} h := h.alloc fun n hqs => by
    refine .list ?_
    rw [List.forall₂_map_left_iff, List.forall₂_map_right_iff, List.forall₂_same]
    exact hqs
  record {ps b a t} h := h.alloc fun n hqs => by
    refine .record none ?_
    rw [Table.Match, Table.entries_map, Table.entries_map, List.forall₂_map_left_iff,
      List.forall₂_map_right_iff, List.forall₂_same]
    exact fun e he => ⟨rfl, hqs _ (List.mem_map_of_mem he)⟩
  define h hmem name assignable := h.rescope fun n hps hscopes =>
    hscopes.define (Binding.match_of_value (hps _ hmem) assignable) name
  setValue h hmem name _ _ := h.rescope fun n hps hscopes => hscopes.setValue (hps _ hmem) name
  enter h := h.rescope fun n _ hscopes => .cons .nil hscopes
  leave h := h.rescope fun n _ hscopes => hscopes.tail
  Held := Holds o o'
  held := by
    rintro ps us ws ⟨rfl, rfl⟩ qs
    exact ⟨by rw [List.map_append, List.append_assoc], by rw [List.map_append, List.append_assoc]⟩
  End ps us ws b a v w := ∃ n, Meets o o' n ps us ws b a v w
  follow := by
    rintro ps us ws b a name c d hholds ⟨n, h⟩ hb ha steps
    have hstart := Meets.start hholds h hb ha
    refine (hstart.aimed.follow steps).imp fun v w hvw => ?_
    exact ⟨n, hholds, h, hvw⟩
  reached := by
    rintro ps us ws b a v w ⟨n, h⟩
    exact ⟨n, h.twinned.cons h.aimed.twin⟩
  setKey := by
    rintro ps us ws b a v w new new' ⟨n, h⟩ hmem k
    obtain ⟨hnew, hnew', htwin⟩ := h.mem hmem
    refine (h.aimed.setKey hnew hnew' htwin k).imp fun st st' hparallel writes writes' => ?_
    exact ⟨n, hparallel, h.twinned.scopes, h.twinned.pairs⟩
  mapSet := by
    rintro ps us ws b a v w new new' ⟨n, h⟩ hmem k
    obtain ⟨hnew, hnew', htwin⟩ := h.mem hmem
    refine (h.aimed.mapSet hnew hnew' htwin k).imp fun st st' hparallel writes writes' => ?_
    have hcons := h.twinned.cons h.aimed.twin
    exact ⟨n, hparallel, hcons.scopes, hcons.pairs⟩
  mapDelete := by
    rintro ps us ws b a v w ⟨n, h⟩ k
    refine (h.aimed.mapDelete k).imp fun x y hxy => ⟨hxy.1, fun writes writes' => ?_⟩
    exact ⟨n, hxy.2, h.twinned.scopes, h.twinned.pairs⟩

end Run

end PathCopy
