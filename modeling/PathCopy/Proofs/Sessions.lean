import PathCopy.Proofs.Edits
import PathCopy.Proofs.Sealing

/-!
Sessions. A process builds values, takes handles to them and lets go of them, writes them in place,
freezes them, and applies updates to them, in any order. At every moment the nodes that it has are
there, and every frozen node heads a frozen subtree.
-/

namespace PathCopy

open Store

namespace Holdings

variable {hs hs' : Holdings} {name : String} {values : List Value} {e : Edit}

/-- A write in place, in or below what a name holds. -/
inductive Wrote (hs : Holdings) (name : String) (values : List Value) : Holdings → Prop
  | intro {keys : List String} {st : Store}
      (written : hs.store.Written (hs.handles values) (hs.get name) values keys st) :
      Wrote hs name values { hs with store := st }

theorem wrote_of_perform (h : hs.perform e = .ok hs') :
    (∃ new, e.values = [new] ∧ hs' = hs.put e.name new) ∨ hs.Wrote e.name e.values hs' := by
  obtain ⟨new, hvalues, -, rfl⟩ | ⟨st, hwritten, rfl⟩ := perform_ok h
  · exact .inl ⟨new, hvalues, rfl⟩
  · exact .inr (.intro hwritten)

theorem Wrote.sound (h : hs.Wrote name values hs') (hsound : hs.store.Sound hs.held.values)
    (hvalues : ∀ v ∈ values, hs.store.Within hs.held.values v) :
    hs'.store.Sound hs'.held.values := by
  obtain ⟨hwritten⟩ := h
  obtain @⟨t, keys, last, body, hchain, -, hdiffers⟩ := hwritten
  have ht := (hs.within_get name).reaches hchain.reaches
  intro r hr
  rw [size_setBody]
  refine hsound r (within_node_iff.mp (within_of_setBody (fun c hc => ?_) (within_node_iff.mpr hr)))
  rcases hdiffers.children c hc with hc | hc
  · exact ht.reaches (reaches_of_mem_children hc)
  · exact hvalues c hc

theorem Wrote.sealed (h : hs.Wrote name values hs') (hsealed : hs.store.Sealed) :
    hs'.store.Sealed := by
  obtain ⟨hwritten⟩ := h
  exact hwritten.sealed hsealed

end Holdings

/-- A process with the values that it holds by name. -/
structure Session where
  workspace : Workspace
  held : Table Value

namespace Session

def store (s : Session) : Store := s.workspace.store

def holdings (s : Session) : Holdings := ⟨s.store, s.held⟩

def withHoldings (s : Session) (hs : Holdings) : Session :=
  ⟨{ s.workspace with store := hs.store }, hs.held⟩

/-- A process that has just started holds nothing. -/
def start (environment : Option String) : Session := ⟨.fresh environment .empty, .empty⟩

/-- A value that the session can name: a scalar, or something inside a value that it holds. -/
def Has (s : Session) (v : Value) : Prop := s.store.Within s.held.values v

def make (s : Session) (name : String) (body : Body) : Session :=
  s.withHoldings ⟨(s.store.alloc body).2, s.held.insert name (s.store.alloc body).1⟩

/-- Goes on after a write, or as before if it was refused. -/
def written (s : Session) : Except WriteError Holdings → Session
  | .ok hs => s.withHoldings hs
  | .error _ => s

def freeze (s : Session) (v : Value) : Session := s.withHoldings ⟨s.store.deepFreeze v, s.held⟩

def update (s : Session) (u : Update) (root : Value) (others : List Value) (name : String) :
    Session :=
  match u.apply root others s.workspace with
  | (.ok out, workspace) => ⟨workspace, s.held.insert name out⟩
  | (.error _, workspace) => ⟨workspace, s.held⟩

/-- One thing that a process does with the values that it has. To hold a value under a name is to
read it or to clone a handle; a write starts at a name and follows steps down from what it holds.
While an update runs, whatever the process holds counts as held. -/
inductive Step (s : Session) : Session → Prop
  | make (name : String) (body : Body) (has : ∀ v ∈ body.children, s.Has v) :
      Step s (s.make name body)
  | hold (name : String) (v : Value) (has : s.Has v) :
      Step s (s.withHoldings (s.holdings.put name v))
  | drop (name : String) : Step s (s.withHoldings (s.holdings.drop name))
  | setKey (name : String) (steps : List PathCopy.Step) (key : String) (new : Value)
      (has : s.Has new) : Step s (s.written (s.holdings.setKey name steps key new))
  | mapSet (name : String) (steps : List PathCopy.Step) (key : String) (new : Value)
      (has : s.Has new) : Step s (s.written (s.holdings.mapSet name steps key new))
  | mapDelete (name : String) (steps : List PathCopy.Step) (key : String) :
      Step s (s.written ((s.holdings.mapDelete name steps key).map Prod.snd))
  | replace (name : String) (steps : List PathCopy.Step) (new : Value) (has : s.Has new) :
      Step s (s.written (s.holdings.replace name steps new))
  | freeze (v : Value) (has : s.Has v) : Step s (s.freeze v)
  | update (u : Update) (root : Value) (others : List Value) (name : String)
      (covers : s.held.values ⊆ u.kept root others) (has : ∀ v ∈ u.kept root others, s.Has v) :
      Step s (s.update u root others name)
  | configure (settings : Settings) : Step s { s with workspace := { s.workspace with settings } }

abbrev Steps : Session → Session → Prop := Relation.ReflTransGen Step

/-- No handle of the session dangles, and frozen nodes head frozen subtrees. -/
structure Valid (s : Session) : Prop where
  sound : s.store.Sound s.held.values
  sealed : s.store.Sealed

variable {s s' : Session} {v : Value}

theorem valid_start (environment : Option String) : (start environment).Valid :=
  ⟨sound_nil _, sealed_empty⟩

/-- Other handles to values that the session has. -/
theorem Valid.rehold {held : Table Value} (h : s.Valid) (hheld : ∀ v ∈ held.values, s.Has v) :
    (s.withHoldings ⟨s.store, held⟩).Valid :=
  ⟨h.sound.mono hheld, h.sealed⟩

theorem Valid.hold (h : s.Valid) (name : String) (has : s.Has v) :
    (s.withHoldings (s.holdings.put name v)).Valid := by
  refine h.rehold fun w hw => ?_
  rcases Table.mem_values_insert hw with rfl | hw
  · exact has
  · exact within_of_mem hw

theorem Valid.make (h : s.Valid) (name : String) {body : Body}
    (has : ∀ v ∈ body.children, s.Has v) : (s.make name body).Valid := by
  refine ⟨fun r hr => ?_, h.sealed.alloc body⟩
  have hsub : (s.make name body).held.values ⊆ (s.store.alloc body).1 :: s.held.values :=
    fun v hv => List.mem_cons.mpr (Table.mem_values_insert hv)
  show r.index < (s.store.alloc body).2.size
  rw [size_alloc]
  rcases within_of_alloc h.sound has (within_node_iff.mpr (Reachable.mono hr hsub)) with hr | hr
  · cases hr
    exact Nat.lt_succ_self _
  · exact Nat.lt_succ_of_lt (h.sound r (within_node_iff.mp hr))

theorem Valid.written (h : s.Valid) {name : String} {values : List Value} {hs : Holdings}
    (hwrote : s.holdings.Wrote name values hs) (hvalues : ∀ v ∈ values, s.Has v) :
    (s.withHoldings hs).Valid :=
  ⟨hwrote.sound h.sound hvalues, hwrote.sealed h.sealed⟩

theorem Valid.perform (h : s.Valid) (e : Edit) (has : ∀ v ∈ e.values, s.Has v) :
    (s.written (s.holdings.perform e)).Valid := by
  cases hperform : s.holdings.perform e with
  | error e => exact h
  | ok hs =>
      rcases Holdings.wrote_of_perform hperform with ⟨new, hvalues, rfl⟩ | hwrote
      · exact h.hold e.name (has new (by simp [hvalues]))
      · exact h.written hwrote has

theorem Valid.update (h : s.Valid) {u : Update} {root : Value} {others : List Value}
    (name : String) (has : ∀ v ∈ u.kept root others, s.Has v)
    (covers : s.held.values ⊆ u.kept root others) : (s.update u root others name).Valid := by
  have hsound : s.store.Sound (u.kept root others) := h.sound.mono has
  have hgrown := u.apply_grown hsound
  have hsealed := u.apply_sealed h.sealed hsound
  have hheld : ∀ {st' : Store}, ∀ v ∈ s.held.values,
      s.store.Available (u.kept root others) st' v := fun v hv =>
    available_of_within (within_of_mem (covers hv))
  unfold Session.update
  cases hresult : u.apply root others s.workspace with
  | mk result w =>
      rw [hresult] at hgrown hsealed
      cases result with
      | error e => exact ⟨hgrown.1.sound hsound hheld, hsealed⟩
      | ok out =>
          refine ⟨hgrown.1.sound hsound fun v hv => ?_, hsealed⟩
          rcases Table.mem_values_insert hv with rfl | hv
          · exact hgrown.2 _ rfl
          · exact hheld v hv

theorem Step.valid (h : Step s s') (hs : s.Valid) : s'.Valid := by
  cases h with
  | make name body has => exact hs.make name has
  | hold name v has => exact hs.hold name has
  | drop name => exact hs.rehold fun w hw => within_of_mem (Table.mem_values_erase hw)
  | setKey name steps key new has =>
      exact hs.perform (.setKey name steps key new) (List.forall_mem_singleton.mpr has)
  | mapSet name steps key new has =>
      exact hs.perform (.mapSet name steps key new) (List.forall_mem_singleton.mpr has)
  | mapDelete name steps key => exact hs.perform (.mapDelete name steps key) (by simp [Edit.values])
  | replace name steps new has =>
      exact hs.perform (.replace name steps new) (List.forall_mem_singleton.mpr has)
  | freeze v has =>
      have hsound : s.store.Sound [v] := hs.sound.mono (List.forall_mem_singleton.mpr has)
      exact ⟨(frozen_deepFreeze s.store v).sound hs.sound, hs.sealed.deepFreeze hsound⟩
  | update u root others name covers has => exact hs.update name has covers
  | configure settings => exact ⟨hs.sound, hs.sealed⟩

theorem Steps.valid (h : Steps s s') (hs : s.Valid) : s'.Valid := by
  induction h with
  | refl => exact hs
  | tail _ hstep ih => exact hstep.valid ih

/-- In every state that a process can come to, the children of a frozen node are frozen; so a value
is frozen if and only if everything in it is, and freezing a value sets the flags of exactly the
nodes in it that were not frozen, and changes nothing else. -/
theorem sealed_throughout {environment : Option String} (h : Steps (start environment) s) :
    (∀ r c, (s.store.node r).frozen → c ∈ s.store.children r → s.store.isFrozen c) ∧
    (∀ v, s.store.isFrozen v = s.store.isDeepFrozen v) ∧
    ∀ v, s.Has v →
      (∀ r, ((s.freeze v).store.node r).frozen ↔
        (s.store.node r).frozen ∨ s.store.Reaches v (.node r)) ∧
      (s.freeze v).store.size = s.store.size ∧
      ∀ r, (s.freeze v).store.body r = s.store.body r := by
  obtain ⟨hsound, hsealed⟩ := h.valid (valid_start environment)
  refine ⟨fun r c hr hc => ?_, hsealed.isFrozen_eq, fun v hv => ⟨fun r => ?_, ?_, ?_⟩⟩
  · cases c with
    | scalar a => rfl
    | node t => exact (hsealed r t hr hc).2
  · exact hsealed.frozen_deepFreeze_iff (hsound.mono (List.forall_mem_singleton.mpr hv))
  · exact (frozen_deepFreeze s.store v).size_eq
  · exact (frozen_deepFreeze s.store v).body_eq

def box : Session :=
  ((start none).make "items" (.list [])).make "box" (.record none (.ofList [("items", .node ⟨0⟩)]))

def shut : Update := ⟨"s => \x7b s.label = 'shut' \x7d", none, [], ⟨none, some false⟩⟩

/-- A copy of the box has been labelled by the update, and the box by a write in place. The copy is
the third node. -/
def boxes : Session :=
  let s := box.update shut (.node ⟨1⟩) [.node ⟨0⟩] "copy"
  s.written (s.holdings.setKey "box" [] "label" (.text "open"))

theorem sealed_throughout_boxes :
    Steps (start none) (boxes.freeze (.node ⟨2⟩)) ∧
      (boxes.freeze (.node ⟨2⟩)).store.isDeepFrozen (.node ⟨2⟩) ∧
      ((boxes.freeze (.node ⟨2⟩)).store.node ⟨0⟩).frozen := by
  have hitems : Step (start none) ((start none).make "items" (.list [])) :=
    .make "items" (.list []) (by simp [Body.children])
  have hbox : Step ((start none).make "items" (.list [])) box :=
    .make "box" _ fun v hv => within_of_mem hv
  have hcopy : Step box (box.update shut (.node ⟨1⟩) [.node ⟨0⟩] "copy") :=
    .update shut (.node ⟨1⟩) [.node ⟨0⟩] "copy" (List.Perm.swap _ _ _).subset
      fun v hv => within_of_mem ((List.Perm.swap _ _ _).subset hv)
  have hlabel : Step _ boxes := .setKey "box" [] "label" (.text "open") (within_scalar _)
  have hboxes : Steps (start none) boxes :=
    (((Relation.ReflTransGen.single hitems).tail hbox).tail hcopy).tail hlabel
  have hhas : boxes.Has (.node ⟨2⟩) := within_of_mem (occurrences_pos.mp (by decide +kernel))
  have hshared : boxes.store.Reaches (.node ⟨2⟩) (.node ⟨0⟩) :=
    reaches_of_mem_children (occurrences_pos.mp (by decide +kernel))
  have hfrozen := ((sealed_throughout hboxes).2.2 _ hhas).1
  have hsteps := hboxes.tail (.freeze (.node ⟨2⟩) hhas)
  refine ⟨hsteps, ?_, (hfrozen ⟨0⟩).mpr (.inr hshared)⟩
  rw [← (sealed_throughout hsteps).2.1]
  exact (hfrozen ⟨2⟩).mpr (.inr (reaches_refl _ _))

end Session

end PathCopy
