import PathCopy.Proofs.Sessions

/-!
Isolation. In every state that a process can come to, a write in place is seen only by those who look
through the handles that it went through. What is frozen is out of reach of all writes for good.
-/

namespace PathCopy

open Store

namespace Store

/-- A store in which the frozen nodes of another one are as they were there. -/
structure KeepsFrozen (st st' : Store) : Prop where
  size_le : st.size ≤ st'.size
  body_eq : ∀ {r : Ref}, r.index < st.size → (st.node r).frozen → st'.body r = st.body r
  frozen : ∀ {r : Ref}, r.index < st.size → (st.node r).frozen → (st'.node r).frozen

variable {st st' st'' : Store} {counts : Array Nat} {v : Value} {values : List Value}
  {keys : List String} {r : Ref}

theorem keepsFrozen_refl (st : Store) : st.KeepsFrozen st :=
  ⟨Nat.le_refl _, fun _ _ => rfl, fun _ => id⟩

theorem KeepsFrozen.trans (h : st.KeepsFrozen st') (h' : st'.KeepsFrozen st'') :
    st.KeepsFrozen st'' where
  size_le := Nat.le_trans h.size_le h'.size_le
  body_eq hr hfrozen := by
    rw [h'.body_eq (Nat.lt_of_lt_of_le hr h.size_le) (h.frozen hr hfrozen), h.body_eq hr hfrozen]
  frozen hr hfrozen := h'.frozen (Nat.lt_of_lt_of_le hr h.size_le) (h.frozen hr hfrozen)

theorem Extends.keepsFrozen (h : st.Extends st') : st.KeepsFrozen st' :=
  ⟨h.size_le, fun hr _ => h.body_eq hr, h.frozen⟩

theorem Frozen.keepsFrozen (h : st.Frozen st') : st.KeepsFrozen st' :=
  ⟨h.size_eq.ge, fun _ _ => h.body_eq _, fun _ => h.frozen _⟩

theorem Written.keepsFrozen (h : st.Written counts v values keys st') : st.KeepsFrozen st' := by
  obtain ⟨-, hclaimed, -⟩ := h
  refine ⟨(size_setBody ..).ge, fun {r} _ hfrozen => body_setBody_of_ne ?_, fun _ hfrozen => ?_⟩
  · rintro rfl
    simp [hclaimed.unfrozen] at hfrozen
  · rwa [frozen_setBody]

/-- Below a frozen node of a sealed store nothing changes. -/
theorem KeepsFrozen.agreeBelow (h : st.KeepsFrozen st') (hsealed : st.Sealed)
    (hr : r.index < st.size) (hfrozen : (st.node r).frozen) :
    st.AgreeBelow st' (.node r) ∧ ∀ q, st.Reaches (.node r) (.node q) → (st'.node q).frozen := by
  have hbelow : ∀ q, st.Reaches (.node r) (.node q) → q.index < st.size ∧ (st.node q).frozen := by
    intro q hq
    rcases reaches_to_node hq with heq | ⟨p, hp, hmem⟩
    · cases heq
      exact ⟨hr, hfrozen⟩
    · exact hsealed p q (hsealed.frozen_of_reaches hfrozen hp) hmem
  exact ⟨fun q hq => h.body_eq (hbelow q hq).1 (hbelow q hq).2,
    fun q hq => h.frozen (hbelow q hq).1 (hbelow q hq).2⟩

end Store

namespace Session

variable {s s' : Session} {r : Ref}

theorem keepsFrozen_written {result : Except WriteError Holdings}
    (h : ∀ hs, result = .ok hs → s.store.KeepsFrozen hs.store) :
    s.store.KeepsFrozen (s.written result).store := by
  cases result with
  | error e => exact keepsFrozen_refl _
  | ok hs => exact h hs rfl

theorem keepsFrozen_perform (s : Session) (e : Edit) :
    s.store.KeepsFrozen (s.written (s.holdings.perform e)).store := by
  refine keepsFrozen_written fun hs hperform => ?_
  obtain ⟨new, -, -, rfl⟩ | ⟨st, hwritten, rfl⟩ := Holdings.perform_ok hperform
  · exact keepsFrozen_refl _
  · exact hwritten.keepsFrozen

/-- No step changes or thaws a frozen node. -/
theorem Step.keepsFrozen (h : Step s s') (hs : s.Valid) : s.store.KeepsFrozen s'.store := by
  cases h with
  | make name body has => exact (extends_alloc s.store body).keepsFrozen
  | hold name v has => exact keepsFrozen_refl _
  | drop name => exact keepsFrozen_refl _
  | setKey name steps key new has => exact s.keepsFrozen_perform (.setKey name steps key new)
  | mapSet name steps key new has => exact s.keepsFrozen_perform (.mapSet name steps key new)
  | mapDelete name steps key => exact s.keepsFrozen_perform (.mapDelete name steps key)
  | replace name steps new has => exact s.keepsFrozen_perform (.replace name steps new)
  | freeze v has => exact (frozen_deepFreeze s.store v).keepsFrozen
  | update u root others name covers has =>
      have hgrown := (u.apply_grown (hs.sound.mono has)).1
      unfold Session.update
      split
      · next heq =>
        rw [heq] at hgrown
        exact hgrown.keepsFrozen
      · next heq =>
        rw [heq] at hgrown
        exact hgrown.keepsFrozen
  | configure settings => exact keepsFrozen_refl _

theorem Steps.keepsFrozen (h : Steps s s') (hs : s.Valid) : s.store.KeepsFrozen s'.store := by
  induction h with
  | refl => exact keepsFrozen_refl _
  | tail hsteps hstep ih => exact ih.trans (hstep.keepsFrozen (Steps.valid hsteps hs))

theorem step_perform (s : Session) (e : Edit) (has : ∀ v ∈ e.values, s.Has v) :
    Step s (s.written (s.holdings.perform e)) := by
  cases e with
  | setKey name steps key new => exact .setKey name steps key new (has new List.mem_cons_self)
  | mapSet name steps key new => exact .mapSet name steps key new (has new List.mem_cons_self)
  | mapDelete name steps key => exact .mapDelete name steps key
  | replace name steps new => exact .replace name steps new (has new List.mem_cons_self)

/-- Isolation of writes, in every state that a process can come to. Writing values at hand leads to
such a state again. A write that is refused changes nothing. A write goes through only if each container on its way is not frozen and has no handle but
one; then every handle off its way leads to the same value as before, with the same contents at
every depth, and so does the handle to the value that is written. What lies in or below a frozen node
does not change, in whatever way the process goes on. -/
theorem writes_isolated {environment : Option String} (h : Steps (start environment) s) (e : Edit) :
    ((∀ v ∈ e.values, s.Has v) → Steps (start environment) (s.written (s.holdings.perform e))) ∧
    (∀ error, s.holdings.perform e = .error error → s.written (s.holdings.perform e) = s) ∧
    (∀ hs, s.holdings.perform e = .ok hs →
      (∀ p key q, e.keys = p ++ key :: q → ∃ r,
        s.store.at? (s.holdings.get e.name) p = some (.node r) ∧
          (s.store.node r).frozen = false ∧ (s.holdings.handles e.values).getD r.index 0 = 1) ∧
      (∀ handle v, s.holdings.Live handle → ¬ s.holdings.OnWay e handle →
        s.holdings.value? handle = some v →
          hs.value? handle = some v ∧ s.store.AgreeBelow hs.store v) ∧
      ∀ v ∈ e.values, s.store.AgreeBelow hs.store v) ∧
    ∀ s', Steps s s' → ∀ r : Ref, r.index < s.store.size → (s.store.node r).frozen →
      s.store.AgreeBelow s'.store (.node r) ∧
        ∀ q, s.store.Reaches (.node r) (.node q) → (s'.store.node q).frozen := by
  have hvalid := Steps.valid h (valid_start environment)
  refine ⟨fun has => h.tail (step_perform s e has), fun error herror => ?_,
    fun hs hok => ⟨?_, ?_⟩, fun s' hsteps r hr hfrozen => ?_⟩
  · rw [herror, written]
  · exact fun p key q hkeys => Holdings.claimed_of_perform hok hkeys
  · exact Holdings.unseen_of_perform hok
  · exact (Steps.keepsFrozen hsteps hvalid).agreeBelow hvalid.sealed hr hfrozen

/-- Labels the box, whose list another name holds too. -/
def label : Edit := .setKey "box" [] "label" (.text "open")

/-- Writes the list in the box by way of the box. -/
def fill : Edit := .setKey "box" [.key "items"] "0" (.text "lamp")

theorem writes_isolated_label_fill :
    Steps (start none) box ∧
      (∃ hs, box.holdings.perform label = .ok hs ∧
        hs.value? (.name "items") = some (.node ⟨0⟩) ∧
        box.store.AgreeBelow hs.store (.node ⟨0⟩)) ∧
      ∀ hs, box.holdings.perform fill ≠ .ok hs := by
  have hitems : Step (start none) ((start none).make "items" (.list [])) :=
    .make "items" (.list []) (by simp [Body.children])
  have hbox : Step ((start none).make "items" (.list [])) box :=
    .make "box" _ fun v hv => within_of_mem hv
  have hsteps : Steps (start none) box := (Relation.ReflTransGen.single hitems).tail hbox
  refine ⟨hsteps, ?_, fun hs hok => ?_⟩
  · have hsome : (box.holdings.perform label).toOption.isSome := by decide +kernel
    obtain ⟨hs, hok⟩ := Option.isSome_iff_exists.mp hsome
    replace hok := eq_ok_of_mem_toOption hok
    have hoff : ¬ box.holdings.OnWay label (.name "items") := show "items" ≠ "box" by decide
    exact ⟨hs, hok, ((writes_isolated hsteps label).2.2.1 hs hok).2.1 _ _ trivial hoff rfl⟩
  · obtain ⟨r, hr, -, hone⟩ :=
      ((writes_isolated hsteps fill).2.2.1 hs hok).1 ["items"] "0" [] rfl
    have hlist : box.store.at? (box.holdings.get fill.name) ["items"] = some (.node ⟨0⟩) := rfl
    rw [hlist] at hr
    cases hr
    exact absurd hone (by decide +kernel)

end Session

end PathCopy
