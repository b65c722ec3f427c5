import PathCopy.Proofs.Growth
import PathCopy.Proofs.Outcomes
import PathCopy.Value.Holdings

/-!
Edits. A write in place starts at a name, follows steps down from what the name holds, and changes
one container. Each container on its way must have no handle but the one on the way. So whoever looks
through another handle, at whatever depth, finds the same nodes with the same contents as before.
-/

namespace PathCopy

open Store

/-- A handle: a name that holds a value, or a place under a key of a container. -/
inductive Handle
  | name (name : String)
  | slot (container : Ref) (key : String)

/-- A write through a name: to a key of the container that the steps lead to, or to what they lead
to itself. -/
inductive Edit
  | setKey (name : String) (steps : List Step) (key : String) (new : Value)
  | mapSet (name : String) (steps : List Step) (key : String) (new : Value)
  | mapDelete (name : String) (steps : List Step) (key : String)
  | replace (name : String) (steps : List Step) (new : Value)

namespace Edit

def name : Edit → String
  | setKey name _ _ _ => name
  | mapSet name _ _ _ => name
  | mapDelete name _ _ => name
  | replace name _ _ => name

def keys : Edit → List String
  | setKey _ steps key _ => steps.map Step.text ++ [key]
  | mapSet _ steps key _ => steps.map Step.text ++ [key]
  | mapDelete _ steps key => steps.map Step.text ++ [key]
  | replace _ steps _ => steps.map Step.text

def values : Edit → List Value
  | setKey _ _ _ new => [new]
  | mapSet _ _ _ new => [new]
  | mapDelete _ _ _ => []
  | replace _ _ new => [new]

end Edit

namespace Holdings

def perform (hs : Holdings) : Edit → Except WriteError Holdings
  | .setKey name steps key new => hs.setKey name steps key new
  | .mapSet name steps key new => hs.mapSet name steps key new
  | .mapDelete name steps key => (hs.mapDelete name steps key).map Prod.snd
  | .replace name steps new => hs.replace name steps new

def value? (hs : Holdings) : Handle → Option Value
  | .name name => hs.held.get? name
  | .slot container key => (hs.store.body container).child? key

/-- Names are alive, and so are the places in containers that names lead to. -/
def Live (hs : Holdings) : Handle → Prop
  | .name _ => True
  | .slot container _ => hs.store.Reachable hs.held.values container

/-- The handles that a write goes through: its name, the places that the keys lead to one after the
other, and the place that is written. -/
def OnWay (hs : Holdings) (e : Edit) : Handle → Prop
  | .name name => name = e.name
  | .slot container key =>
      ∃ p q, e.keys = p ++ key :: q ∧ hs.store.at? (hs.get e.name) p = some (.node container)

end Holdings

namespace Store

variable {st st' : Store} {counts : Array Nat} {v w c : Value} {values others : List Value}
  {r t : Ref} {key : String} {keys p q : List String}

/-! ### The way of a write -/

/-- A place from where one comes to the end of a chain is on the chain. -/
theorem Chain.onWay (h : st.Chain counts v keys (.node t)) (ht : st.Claimed counts t)
    (hcounted : st.Counted counts (v :: others)) (hr : st.Reachable (v :: others) r)
    (hchild : (st.body r).child? key = some c) (hc : st.Reaches c (.node t)) :
    ∃ p q, keys = p ++ key :: q ∧ st.at? v p = some (.node r) := by
  generalize hw : Value.node t = w at h
  induction h generalizing others with
  | here v =>
      subst hw
      have halone := hcounted.alone ht.index_lt ht.sole
      have hback : st.Reaches (.node r) (.node t) :=
        (reaches_of_mem_children (Body.mem_children_of_child? hchild)).trans hc
      obtain ⟨u, hu, hur⟩ := hr
      exfalso
      rcases List.mem_cons.mp hu with rfl | hu
      · rcases reaches_node_iff.mp hur with heq | ⟨d, hd, hdr⟩
        · cases heq
          exact halone c (List.mem_append_left _ (Body.mem_children_of_child? hchild)) hc
        · exact halone d (List.mem_append_left _ hd) (hdr.trans hback)
      · exact halone u (List.mem_append_right _ hu) (hur.trans hback)
  | @step s k keys v w hclaimed hstep hrest ih =>
      subst hw
      obtain ⟨siblings, hperm, hcounted', halone, hmem⟩ := hcounted.descend hclaimed hstep
      by_cases hsr : r = s
      · subst hsr
        by_cases hk : key = k
        · exact ⟨[], keys, by rw [hk]; rfl, rfl⟩
        · have hc' : c ∈ siblings ++ others := List.mem_append_left _ (hmem key c hk hchild)
          exact absurd hc (hrest.alone ht hcounted' c (List.mem_append_right _ hc'))
      · obtain ⟨u, hu, hur⟩ := ((reachable_open_iff halone).mp hr).resolve_left hsr |>.2
        have hbelow : st.Reachable (v :: (siblings ++ others)) r :=
          ⟨u, (hperm.append_right others).subset hu, hur⟩
        obtain ⟨p, q, rfl, hp⟩ := ih hcounted' hbelow rfl
        exact ⟨k :: p, q, rfl, at?_cons.mpr ⟨s, v, rfl, hstep, hp⟩⟩

theorem Chain.claimed_of_append (h : st.Chain counts v (p ++ key :: q) w) :
    ∃ r, st.at? v p = some (.node r) ∧ st.Claimed counts r := by
  induction p generalizing v with
  | nil =>
      cases h with
      | step hclaimed _ _ => exact ⟨_, rfl, hclaimed⟩
  | cons k p ih =>
      cases h with
      | step _ hchild hrest =>
          obtain ⟨r, hr, hclaimed⟩ := ih hrest
          exact ⟨r, at?_cons.mpr ⟨_, _, rfl, hchild, hr⟩, hclaimed⟩

/-- The written container can be written, and so can every container on the way to it. -/
theorem Written.claimed_of_append (h : st.Written counts v values keys st')
    (hkeys : keys = p ++ key :: q) :
    ∃ r, st.at? v p = some (.node r) ∧ st.Claimed counts r := by
  obtain @⟨t, keys, last, body, hchain, hclaimed, -⟩ := h
  rcases List.eq_nil_or_concat q with rfl | ⟨q, k, rfl⟩
  · obtain ⟨rfl, -⟩ := List.append_inj' hkeys rfl
    exact ⟨t, hchain.at?_eq, hclaimed⟩
  · rw [List.concat_eq_append, ← List.cons_append, ← List.append_assoc] at hkeys
    obtain ⟨rfl, -⟩ := List.append_inj' hkeys rfl
    exact hchain.claimed_of_append

theorem Written.exists_node (h : st.Written counts v values keys st') : ∃ r, v = .node r := by
  obtain ⟨hchain, -, -⟩ := h
  cases hchain with
  | here => exact ⟨_, rfl⟩
  | step => exact ⟨_, rfl⟩

/-- What does not lie below the value that a write starts at does not change. -/
theorem Written.agreeBelow (h : st.Written counts v values keys st')
    (hcounted : st.Counted counts (v :: others)) (hc : c ∈ others) : st.AgreeBelow st' c := by
  obtain ⟨hchain, hclaimed, -⟩ := h
  exact agreeBelow_setBody (hchain.alone hclaimed hcounted c (List.mem_append_right _ hc))

/-- A place that the keys of a write do not go through keeps what it holds. -/
theorem Written.unseen (h : st.Written counts v values keys st')
    (hcounted : st.Counted counts (v :: others)) (hr : st.Reachable (v :: others) r)
    (hchild : (st.body r).child? key = some c)
    (hoff : ¬ ∃ p q, keys = p ++ key :: q ∧ st.at? v p = some (.node r)) :
    (st'.body r).child? key = some c ∧ st.AgreeBelow st' c := by
  obtain @⟨t, keys, last, body, hchain, hclaimed, hdiffers⟩ := h
  constructor
  · by_cases hrt : r = t
    · subst hrt
      have hkey : key ≠ last := by
        rintro rfl
        exact hoff ⟨keys, [], rfl, hchain.at?_eq⟩
      rwa [body_setBody_self hclaimed.index_lt, hdiffers.child key hkey]
    · rwa [body_setBody_of_ne hrt]
  · refine agreeBelow_setBody fun hc => hoff ?_
    obtain ⟨p, q, rfl, hp⟩ := hchain.onWay hclaimed hcounted hr hchild hc
    exact ⟨p, q ++ [last], by simp, hp⟩

end Store

namespace Holdings

variable {hs hs' : Holdings} {e : Edit}

/-- A write that goes through has changed what a name holds, or the container at the end of its
way. -/
theorem perform_ok (h : hs.perform e = .ok hs') :
    (∃ new, e.values = [new] ∧ e.keys = [] ∧ hs' = hs.put e.name new) ∨
      ∃ st, hs.store.Written (hs.handles e.values) (hs.get e.name) e.values e.keys st ∧
        hs' = { hs with store := st } := by
  cases e with
  | setKey name steps key new =>
      obtain ⟨container, hfollow, h⟩ := except_bind_ok h
      obtain ⟨st, hset, h⟩ := except_bind_ok h
      cases h
      obtain ⟨r, body, rfl, hclaimed, hdiffers, rfl⟩ := Store.setKey_ok hset
      exact .inr ⟨_, .intro (chain_of_follow hfollow) hclaimed hdiffers, rfl⟩
  | mapSet name steps key new =>
      obtain ⟨map, hfollow, h⟩ := except_bind_ok h
      obtain ⟨st, hset, h⟩ := except_bind_ok h
      cases h
      obtain ⟨r, body, rfl, hclaimed, hdiffers, rfl⟩ := Store.mapSet_ok hset
      exact .inr ⟨_, .intro (chain_of_follow hfollow) hclaimed hdiffers, rfl⟩
  | mapDelete name steps key =>
      obtain ⟨result, hresult, h⟩ := except_map_ok h
      obtain ⟨map, hfollow, hresult⟩ := except_bind_ok hresult
      obtain ⟨⟨found, st⟩, hdelete, hresult⟩ := except_bind_ok hresult
      cases hresult
      cases h
      obtain ⟨r, body, rfl, hclaimed, hdiffers, rfl⟩ := Store.mapDelete_ok hdelete
      exact .inr ⟨_, .intro (chain_of_follow hfollow) hclaimed hdiffers, rfl⟩
  | replace name steps new =>
      -- Without steps the name itself gets the new value.
      rw [perform, replace] at h
      split at h
      · next hlast =>
        cases h
        exact .inl ⟨new, rfl, by rw [Edit.keys, List.getLast?_eq_none_iff.mp hlast]; rfl, rfl⟩
      · next last hlast =>
        obtain ⟨container, hfollow, h⟩ := except_bind_ok h
        obtain ⟨st, hreplace, h⟩ := except_bind_ok h
        cases h
        obtain ⟨r, body, rfl, hclaimed, hdiffers, rfl⟩ := Store.replaceChild_ok hreplace
        have hkeys : (Edit.replace name steps new).keys =
            steps.dropLast.map Step.text ++ [last.text] := by
          obtain ⟨init, rfl⟩ := List.getLast?_eq_some_iff.mp hlast
          simp [Edit.keys]
        refine .inr ⟨_, ?_, rfl⟩
        rw [hkeys]
        exact .intro (chain_of_follow hfollow) hclaimed hdiffers

theorem within_get (hs : Holdings) (name : String) :
    hs.store.Within hs.held.values (hs.get name) := by
  unfold get
  cases hget : hs.held.get? name with
  | none => exact within_scalar _
  | some v => exact within_of_mem (Table.mem_values_of_get? hget)

/-- The counts of a write are right for the value that it starts at and all other handles. -/
theorem counted_perform (hs : Holdings) (name : String) (values : List Value) {r : Ref}
    (hget : hs.get name = .node r) :
    ∃ others, hs.store.Counted (hs.handles values) (hs.get name :: (values ++ others)) ∧
      (∀ v ∈ hs.held.values, v = hs.get name ∨ v ∈ others) ∧
      ∀ n v, n ≠ name → hs.held.get? n = some v → v ∈ others := by
  cases hheld : hs.held.get? name with
  | none => simp [get, hheld, Value.undefined] at hget
  | some u =>
      obtain ⟨others, hperm, hothers⟩ := Table.values_split hheld
      have hu : hs.get name = u := by rw [get, hheld]; rfl
      refine ⟨others, ?_, fun v hv => ?_, hothers⟩
      · rw [hu]
        exact (counted_handles hs.store (values ++ hs.held.values)).perm
          ((hperm.append_left values).trans List.perm_middle)
      · rw [hu]
        exact List.mem_cons.mp (hperm.subset hv)

/-- A write goes through only if each container on its way is not frozen and has one handle. -/
theorem claimed_of_perform (h : hs.perform e = .ok hs') {p q : List String} {key : String}
    (hkeys : e.keys = p ++ key :: q) :
    ∃ r, hs.store.at? (hs.get e.name) p = some (.node r) ∧ (hs.store.node r).frozen = false ∧
      (hs.handles e.values).getD r.index 0 = 1 := by
  obtain ⟨new, -, hnone, -⟩ | ⟨st, hwritten, -⟩ := perform_ok h
  · simp [hkeys] at hnone
  obtain ⟨r, hr, hclaimed⟩ := hwritten.claimed_of_append hkeys
  refine ⟨r, hr, hclaimed.unfrozen, ?_⟩
  have hreach : hs.store.Reachable (e.values ++ hs.held.values) r :=
    (within_node_iff.mp ((hs.within_get e.name).reaches (reaches_of_at? hr))).mono
      (List.subset_append_right _ _)
  have hpos := (handles_ne_zero_iff hclaimed.index_lt).mpr hreach
  have hone : (hs.handles e.values).getD r.index 0 ≤ 1 := hclaimed.sole
  unfold handles at hone ⊢
  omega

/-- Whoever looks through another handle finds there what was there before, and so does whoever
holds the value that is written. -/
theorem unseen_of_perform (h : hs.perform e = .ok hs') :
    (∀ handle v, hs.Live handle → ¬ hs.OnWay e handle → hs.value? handle = some v →
      hs'.value? handle = some v ∧ hs.store.AgreeBelow hs'.store v) ∧
    ∀ v ∈ e.values, hs.store.AgreeBelow hs'.store v := by
  obtain ⟨new, -, -, rfl⟩ | ⟨st, hwritten, rfl⟩ := perform_ok h
  · refine ⟨fun handle v hlive hoff hv => ⟨?_, fun r _ => rfl⟩, fun v _ r _ => rfl⟩
    cases handle with
    | name n =>
        have hn : n ≠ e.name := hoff
        rwa [value?, put, Table.get?_insert, if_neg hn]
    | slot container key => exact hv
  · obtain ⟨t, ht⟩ := hwritten.exists_node
    obtain ⟨others, hcounted, hall, hothers⟩ := hs.counted_perform e.name e.values ht
    refine ⟨fun handle v hlive hoff hv => ?_, fun v hv => ?_⟩
    · cases handle with
      | name n =>
          refine ⟨hv, hwritten.agreeBelow hcounted (List.mem_append_right _ ?_)⟩
          exact hothers n v hoff hv
      | slot container key =>
          refine hwritten.unseen hcounted (hlive.mono fun u hu => ?_) hv hoff
          rcases hall u hu with rfl | hu
          · exact List.mem_cons_self
          · exact List.mem_cons_of_mem _ (List.mem_append_right _ hu)
    · exact hwritten.agreeBelow hcounted (List.mem_append_left _ hv)

end Holdings

end PathCopy
