import PathCopy.Proofs.Bindings
import PathCopy.Proofs.Chains
import PathCopy.Run.Eval

/-!
Runs. A triple says what a run ensures, whether it ends well or fails. The primitive runs either
leave the machine as it is, or make one node, or bind a name, or write: a write assigns a variable,
or writes the store in place below the value of a variable.
-/

namespace PathCopy

namespace Run

variable {α β : Type} {names : NameTable} {held : List Value} {m m' : Machine} {v w : Value}
  {k : String} {span : Span} {p : Place}

/-! ### Composition -/

theorem bind_apply (x : Run α) (f : α → Run β) (m : Machine) :
    (x >>= f) m = match x m with
      | .ok a m => f a m
      | .error e m => .error e m := by
  show EStateM.bind x f m = _
  rw [EStateM.bind]
  cases x m <;> rfl

@[simp] theorem pure_apply (a : α) (m : Machine) : (pure a : Run α) m = .ok a m := rfl

@[simp] theorem get_apply (m : Machine) : (get : Run Machine) m = .ok m m := rfl

@[simp] theorem fail_apply (fault : EvalFault) (span : Span) (m : Machine) :
    (fail fault span : Run α) m = .error ⟨fault, span⟩ m := rfl

@[simp] theorem modify_apply (f : Machine → Machine) (m : Machine) :
    (modify f : Run PUnit) m = .ok ⟨⟩ (f m) := rfl

/-- If the machine has `P` before the run, it has `Q` after the run, or `E` if the run fails. -/
def Ensures (P : Machine → Prop) (x : Run α) (Q : α → Machine → Prop) (E : Machine → Prop) :
    Prop :=
  ∀ m, P m → match x m with
    | .ok a m => Q a m
    | .error _ m => E m

section Ensures

variable {P P' : Machine → Prop} {x : Run α} {f : α → Run β} {Q Q' : α → Machine → Prop}
  {R : β → Machine → Prop} {E : Machine → Prop}

theorem Ensures.ok {a : α} (h : Ensures P x Q E) (hm : P m) (hrun : x m = .ok a m') : Q a m' := by
  have hafter := h m hm
  rwa [hrun] at hafter

theorem Ensures.error {e : EvalError} (h : Ensures P x Q E) (hm : P m)
    (hrun : x m = .error e m') : E m' := by
  have hafter := h m hm
  rwa [hrun] at hafter

theorem Ensures.pure {a : α} (h : ∀ m, P m → Q a m) : Ensures P (Pure.pure a) Q E := h

theorem Ensures.fail {fault : EvalFault} (h : ∀ m, P m → E m) :
    Ensures P (Run.fail fault span) Q E := h

theorem Ensures.bind (hx : Ensures P x Q E) (hf : ∀ a, Ensures (Q a) (f a) R E) :
    Ensures P (x >>= f) R E := by
  intro m hm
  rw [bind_apply]
  cases hrun : x m with
  | ok a m₁ => exact hf a m₁ (hx.ok hm hrun)
  | error e m₁ => exact hx.error hm hrun

/-- A look at the machine: what is seen is the machine that the rest starts from. -/
theorem Ensures.look {f : Machine → Run β} (h : ∀ m₀, P m₀ → Ensures (· = m₀) (f m₀) R E) :
    Ensures P (get >>= f) R E :=
  fun m hm => h m hm m rfl

theorem Ensures.mono {E' : Machine → Prop} (h : Ensures P x Q E) (hpre : ∀ m, P' m → P m)
    (hpost : ∀ a m, Q a m → Q' a m) (herror : ∀ m, E m → E' m) : Ensures P' x Q' E' := by
  intro m hm
  cases hx : x m with
  | ok a m₁ => exact hpost a m₁ (h.ok (hpre m hm) hx)
  | error e m₁ => exact herror m₁ (h.error (hpre m hm) hx)

theorem Ensures.pre (h : Ensures P x Q E) (hpre : ∀ m, P' m → P m) : Ensures P' x Q E :=
  h.mono hpre (fun _ _ => id) fun _ => id

theorem Ensures.and {P₁ E₁ : Machine → Prop} {Q₁ : α → Machine → Prop} (h : Ensures P x Q E)
    (h' : Ensures P₁ x Q₁ E₁) :
    Ensures (fun m => P m ∧ P₁ m) x (fun a m => Q a m ∧ Q₁ a m) fun m => E m ∧ E₁ m := by
  intro m hm
  cases hx : x m with
  | ok a m₁ => exact ⟨h.ok hm.1 hx, h'.ok hm.2 hx⟩
  | error e m₁ => exact ⟨h.error hm.1 hx, h'.error hm.2 hx⟩

theorem Ensures.of_eq (h : ∀ m₀, P m₀ → Ensures (· = m₀) x Q E) : Ensures P x Q E :=
  fun m hm => h m hm m rfl

theorem Ensures.of_ok (h : ∀ m a m', P m → x m = .ok a m' → Q a m') :
    Ensures P x Q fun _ => True := by
  intro m hm
  cases hx : x m with
  | ok a m₁ => exact h m a m₁ hm hx
  | error e m₁ => trivial

theorem Ensures.always (hQ : ∀ a m, Q a m) (hE : ∀ m, E m) : Ensures P x Q E := by
  intro m _
  cases x m with
  | ok a m₁ => exact hQ a m₁
  | error e m₁ => exact hE m₁

end Ensures

/-! ### Primitive runs -/

theorem bind_ok {x : Run α} {f : α → Run β} {b : β} (h : (x >>= f) m = .ok b m') :
    ∃ a m₁, x m = .ok a m₁ ∧ f a m₁ = .ok b m' := by
  rw [bind_apply] at h
  cases hx : x m with
  | ok a m₁ =>
      rw [hx] at h
      exact ⟨a, m₁, rfl, h⟩
  | error e m₁ =>
      rw [hx] at h
      simp at h

/-- A run that leaves the machine alone, whether it ends well or fails. -/
def Still (x : Run α) : Prop := ∀ m, Machine.after (x m) = m

theorem Still.ok {x : Run α} {a : α} (hx : Still x) (h : x m = .ok a m') : m' = m := by
  have hafter := hx m
  rwa [h] at hafter

theorem Still.error {x : Run α} {e : EvalError} (hx : Still x) (h : x m = .error e m') :
    m' = m := by
  have hafter := hx m
  rwa [h] at hafter

theorem Still.bind {x : Run α} {f : α → Run β} (hx : Still x) (hf : ∀ a, Still (f a)) :
    Still (x >>= f) := by
  intro m
  rw [bind_apply]
  cases hrun : x m with
  | ok a m₁ => rw [hx.ok hrun, hf a m]
  | error e m₁ => exact hx.error hrun

theorem still_pure (a : α) : Still (pure a : Run α) := fun _ => rfl

theorem still_get : Still (get : Run Machine) := fun _ => rfl

theorem still_fail (fault : EvalFault) (span : Span) : Still (fail fault span : Run α) :=
  fun _ => rfl

theorem still_ofWrite (x : Except WriteError α) : Still (ofWrite span x) := by
  cases x with
  | ok a => exact still_pure a
  | error e => exact still_fail _ _

theorem still_lookup (names : NameTable) (name : Name) (span : Span) :
    Still (lookup names name span) := by
  refine still_get.bind fun m => ?_
  split
  · exact still_pure _
  · exact still_fail _ _

theorem still_property (v : Value) (key : String) (span : Span) : Still (property v key span) := by
  refine still_get.bind fun m => ?_
  dsimp only
  split
  · exact still_fail _ _
  · exact still_pure _

theorem still_key (v : Value) (span : Span) : Still (key v span) := by
  unfold key
  split
  · exact still_pure _
  · exact still_get.bind fun m => still_fail _ _

theorem still_readSteps (span : Span) (v : Value) (steps : List Step) :
    Still (readSteps span v steps) := by
  induction steps generalizing v with
  | nil => exact still_pure v
  | cons step steps ih =>
      cases step with
      | key k => exact (still_property v k span).bind ih
      | entry k => exact still_get.bind fun m => ih _

theorem still_readPlace (p : Place) (span : Span) : Still (readPlace names p span) :=
  (still_lookup _ _ _).bind fun v => still_readSteps span v p.steps

theorem still_reach (names : NameTable) (counts : Array Nat) (root : Name) (steps : List Step)
    (span : Span) : Still (reach names counts root steps span) :=
  (still_lookup _ _ _).bind fun _ => still_get.bind fun _ => still_ofWrite _

theorem still_reachMap (names : NameTable) (counts : Array Nat) (p : Place) (method : String)
    (arity : Nat) (span : Span) : Still (reachMap names counts p method arity span) := by
  refine (still_reach _ _ _ _ _).bind fun v => still_get.bind fun m => ?_
  dsimp only
  split
  · exact still_pure v
  · split
    · exact still_fail _ _
    · exact still_fail _ _

theorem still_method (receiver : Value) (name : String) (args : List Value) (span : Span) :
    Still (method receiver name args span) := by
  refine still_get.bind fun m => ?_
  dsimp only
  split
  · exact (still_key _ _).bind fun k => still_pure _
  · exact (still_key _ _).bind fun k => still_pure _
  · split
    · exact still_fail _ _
    · exact still_fail _ _

theorem Still.ensures {x : Run α} {P E : Machine → Prop} {Q : α → Machine → Prop} (hx : Still x)
    (hok : ∀ m a, P m → x m = .ok a m → Q a m) (herror : ∀ m, P m → E m) : Ensures P x Q E := by
  intro m hm
  cases hrun : x m with
  | ok a m₁ =>
      cases hx.ok hrun
      exact hok m a hm hrun
  | error e m₁ =>
      cases hx.error hrun
      exact herror m hm

/-! ### What the primitive runs find -/

theorem lookup_ok {name : Name} (h : lookup names name span m = .ok v m') :
    ∃ b, m.scopes.find? name = some b ∧ b.value = v := by
  cases hb : m.scopes.find? name with
  | none => simp [lookup, bind_apply, hb] at h
  | some b =>
      simp only [lookup, bind_apply, get_apply, hb] at h
      cases h
      exact ⟨b, rfl, rfl⟩

theorem lookup_bound {name : Name} {b : Binding} (h : m.scopes.find? name = some b) :
    lookup names name span m = .ok b.value m := by
  simp only [lookup, bind_apply, get_apply, h]
  rfl

theorem property_ok (h : property v k span m = .ok w m') : w = m.store.property v k := by
  rw [property, bind_apply, get_apply] at h
  by_cases hnullish : (m.store.kind v).isNullish
  · simp [hnullish] at h
  · simp only [hnullish] at h
    cases h
    rfl

theorem key_ok (h : key v span m = .ok k m') : v.key? = some k := by
  cases hk : v.key? with
  | none => simp [key, hk, bind_apply] at h
  | some l =>
      simp only [key, hk] at h
      cases h
      rfl

/-- A method answers with an entry of its receiver or with a truth value. -/
theorem method_ok {receiver : Value} {name : String} {args : List Value}
    (h : method receiver name args span m = .ok v m') :
    (∃ k, v = m.store.mapEntry receiver k) ∨ ∃ b, v = .bool b := by
  have hanswer : Ensures (· = m) (method receiver name args span)
      (fun v _ => (∃ k, v = m.store.mapEntry receiver k) ∨ ∃ b, v = .bool b) fun _ => True := by
    refine .look fun m₀ hm₀ => ?_
    subst hm₀
    dsimp only
    split
    · exact .bind (Q := fun _ _ => True)
        ((still_key _ _).ensures (fun _ _ _ _ => trivial) fun _ _ => trivial)
        fun k => .pure fun _ _ => .inl ⟨k, rfl⟩
    · exact .bind (Q := fun _ _ => True)
        ((still_key _ _).ensures (fun _ _ _ _ => trivial) fun _ _ => trivial)
        fun k => .pure fun _ _ => .inr ⟨_, rfl⟩
    · split
      · exact .fail fun _ _ => trivial
      · exact .fail fun _ _ => trivial
  exact hanswer.ok rfl h

theorem ofWrite_ok {x : Except WriteError α} {a : α} (h : ofWrite span x m = .ok a m') :
    x = .ok a := by
  cases x with
  | ok b =>
      cases h
      rfl
  | error e => cases h

theorem reach_follow {counts : Array Nat} {root : Name} {steps : List Step}
    (h : reach names counts root steps span m = .ok v m') :
    ∃ b, m.scopes.find? root = some b ∧ m.store.follow counts b.value steps = .ok v := by
  obtain ⟨u, m₁, hlookup, h⟩ := bind_ok h
  obtain ⟨b, hb, rfl⟩ := lookup_ok hlookup
  obtain ⟨m₂, m₃, hget, h⟩ := bind_ok h
  cases (still_lookup _ _ _).ok hlookup
  cases hget
  exact ⟨b, hb, ofWrite_ok h⟩

theorem reach_ok {counts : Array Nat} {root : Name} {steps : List Step}
    (h : reach names counts root steps span m = .ok v m') :
    ∃ b, m.scopes.find? root = some b ∧
      m.store.Chain counts b.value (steps.map Step.text) v := by
  obtain ⟨b, hb, hfollow⟩ := reach_follow h
  exact ⟨b, hb, Store.chain_of_follow hfollow⟩

theorem reachMap_ok {counts : Array Nat} {method : String} {arity : Nat}
    (h : reachMap names counts p method arity span m = .ok v m') :
    ∃ b, m.scopes.find? p.root = some b ∧ m.store.Chain counts b.value p.keys v := by
  obtain ⟨u, m₁, hreach, h⟩ := bind_ok h
  obtain ⟨m₂, m₃, hget, h⟩ := bind_ok h
  dsimp only at h
  split at h
  · cases h
    exact reach_ok hreach
  · split at h
    · simp at h
    · simp at h

/-! ### Writes -/

/-- What a write does to a machine whose handles are those in its scopes and in `held`: it assigns
a variable, or it writes the store in place below the value of a variable. The values that it
writes are in `new`; only a deletion writes none. -/
inductive Wrote (held new : List Value) (w : Write) (m : Machine) : Machine → Prop
  | assigned {v : Value} {b : Binding} (bound : m.scopes.find? w.root = some b)
      (assignable : b.assignable = true) (keys : w.keys = []) (effect : w.effect = .assign)
      (value : v ∈ new) :
      Wrote held new w m
        { m with scopes := m.scopes.setValue w.root v, writes := w :: m.writes }
  | stored {b : Binding} {st : Store} (bound : m.scopes.find? w.root = some b)
      (written :
        m.store.Written (m.store.handles (m.scopes.values ++ held)) b.value new w.keys st)
      (erased : new = [] → w.effect = .mapDelete) :
      Wrote held new w m { m with store := st, writes := w :: m.writes }

/-- The handles of a write beside the one that the write goes through. -/
theorem counted_others {name : Name} {b : Binding} (h : m.scopes.find? name = some b)
    (held : List Value) :
    ∃ others, m.store.Counted (m.store.handles (m.scopes.values ++ held)) (b.value :: others) ∧
      held ⊆ others ∧
      ∀ other c, other ≠ name → m.scopes.find? other = some c → c.value ∈ others := by
  obtain ⟨rest, hperm, hrest⟩ := Scopes.values_split h
  refine ⟨rest ++ held, ?_, List.subset_append_right rest held, fun other c hother hc => ?_⟩
  · exact (m.store.counted_handles _).perm (hperm.append_right held)
  · exact List.mem_append_left held (hrest other c hother hc)

theorem handles_apply (held : List Value) (m : Machine) :
    handles held m = .ok (m.store.handles (m.scopes.values ++ held)) m := rfl

theorem assign_ok {name : Name} {u : Unit} (h : assign names name v span m = .ok u m') :
    ∃ b, m.scopes.find? name = some b ∧ b.assignable = true ∧
      m' = { m with
        scopes := m.scopes.setValue name v, writes := ⟨name, [], .assign⟩ :: m.writes } := by
  cases hb : m.scopes.find? name with
  | none => simp [assign, bind_apply, hb] at h
  | some b =>
      by_cases hassignable : b.assignable
      · simp only [assign, bind_apply, get_apply, hb, if_pos hassignable] at h
        cases h
        exact ⟨b, rfl, hassignable, rfl⟩
      · simp [assign, bind_apply, hb, hassignable] at h

theorem keep_ok {w : Write} {written : Except WriteError Store} {u : Unit}
    (h : keep span w written m = .ok u m') :
    ∃ st, written = .ok st ∧ m' = { m with store := st, writes := w :: m.writes } := by
  obtain ⟨st, m₁, hwrite, h⟩ := bind_ok h
  cases (still_ofWrite _).ok hwrite
  cases h
  exact ⟨st, ofWrite_ok hwrite, rfl⟩

/-- A write to a place assigns its variable, or it follows all steps but the last one and sets the
key of that one. -/
theorem writePlace_cases {u : Unit} (h : writePlace names held p v span m = .ok u m') :
    (p.steps = [] ∧ ∃ b, m.scopes.find? p.root = some b ∧ b.assignable = true ∧
      m' = { m with
        scopes := m.scopes.setValue p.root v, writes := ⟨p.root, [], .assign⟩ :: m.writes }) ∨
    ∃ steps k b container st, p.steps = steps ++ [.key k] ∧
      m.scopes.find? p.root = some b ∧
      m.store.follow (m.store.handles (m.scopes.values ++ v :: held)) b.value steps =
        .ok container ∧
      m.store.setKey (m.store.handles (m.scopes.values ++ v :: held)) container k v = .ok st ∧
      m' = { m with store := st, writes := ⟨p.root, p.keys, .assign⟩ :: m.writes } := by
  cases hlast : p.steps.getLast? with
  | none =>
      rw [writePlace, hlast] at h
      exact .inl ⟨List.getLast?_eq_none_iff.mp hlast, assign_ok h⟩
  | some step =>
      rw [writePlace, hlast] at h
      cases step with
      | entry k => simp at h
      | key k =>
          obtain ⟨counts, m₁, hcounts, h⟩ := bind_ok h
          obtain ⟨container, m₂, hreach, h⟩ := bind_ok h
          obtain ⟨m₃, m₄, hget, h⟩ := bind_ok h
          rw [handles_apply] at hcounts
          cases hcounts
          cases (still_reach _ _ _ _ _).ok hreach
          cases hget
          obtain ⟨b, hb, hfollow⟩ := reach_follow hreach
          obtain ⟨st, hset, rfl⟩ := keep_ok h
          refine .inr ⟨p.steps.dropLast, k, b, container, st, ?_, hb, hfollow, hset, rfl⟩
          obtain ⟨steps, hsteps⟩ := List.getLast?_eq_some_iff.mp hlast
          rw [hsteps, List.dropLast_concat]

theorem writePlace_ok {u : Unit} (h : writePlace names held p v span m = .ok u m') :
    Wrote (v :: held) [v] ⟨p.root, p.keys, .assign⟩ m m' := by
  obtain ⟨hsteps, b, hb, hassignable, rfl⟩ | ⟨steps, k, b, container, st, hsteps, hb, hfollow, hset,
    rfl⟩ := writePlace_cases h
  · rw [Place.keys, hsteps]
    exact .assigned hb hassignable rfl rfl List.mem_cons_self
  · obtain ⟨r, body, rfl, hclaimed, hdiffers, rfl⟩ := Store.setKey_ok hset
    have hkeys : p.keys = steps.map Step.text ++ [k] := by simp [Place.keys, hsteps, Step.text]
    exact .stored hb (hkeys ▸ .intro (Store.chain_of_follow hfollow) hclaimed hdiffers) (by simp)

theorem mapSet_ok {u : Value} (h : mapSet names held p k v span m = .ok u m') :
    Wrote (v :: held) [v] ⟨p.root, p.keys ++ [k], .mapSet⟩ m m' ∧
      ∃ b, m.scopes.find? p.root = some b ∧ m'.store.Reaches b.value u := by
  obtain ⟨counts, m₁, hcounts, h⟩ := bind_ok h
  obtain ⟨map, m₂, hreach, h⟩ := bind_ok h
  obtain ⟨m₃, m₄, hget, h⟩ := bind_ok h
  obtain ⟨done, m₅, hkeep, hdone⟩ := bind_ok h
  rw [handles_apply] at hcounts
  cases hcounts
  cases (still_reachMap _ _ _ _ _ _).ok hreach
  cases hget
  cases hdone
  obtain ⟨b, hb, hchain⟩ := reachMap_ok hreach
  obtain ⟨st, hset, rfl⟩ := keep_ok hkeep
  obtain ⟨r, body, rfl, hclaimed, hdiffers, rfl⟩ := Store.mapSet_ok hset
  exact ⟨.stored hb (.intro hchain hclaimed hdiffers) (by simp), b, hb,
    hchain.reaches.setBody_target body⟩

theorem mapDelete_ok {u : Value} (h : mapDelete names held p k span m = .ok u m') :
    Wrote held [] ⟨p.root, p.keys ++ [k], .mapDelete⟩ m m' ∧ ∃ b, u = .bool b := by
  obtain ⟨counts, m₁, hcounts, h⟩ := bind_ok h
  obtain ⟨map, m₂, hreach, h⟩ := bind_ok h
  obtain ⟨m₃, m₄, hget, h⟩ := bind_ok h
  obtain ⟨⟨removed, st⟩, m₅, hdelete, h⟩ := bind_ok h
  rw [handles_apply] at hcounts
  cases hcounts
  cases (still_reachMap _ _ _ _ _ _).ok hreach
  cases hget
  cases (still_ofWrite _).ok hdelete
  cases h
  obtain ⟨b, hb, hchain⟩ := reachMap_ok hreach
  obtain ⟨r, body, rfl, hclaimed, hdiffers, rfl⟩ := Store.mapDelete_ok (ofWrite_ok hdelete)
  exact ⟨.stored hb (.intro hchain hclaimed hdiffers) fun _ => rfl, removed, rfl⟩

/-! ### Failures -/

/-- A run that leaves the machine alone if it fails. -/
def Guarded (x : Run α) : Prop := ∀ m e m', x m = .error e m' → m' = m

theorem Still.guarded {x : Run α} (hx : Still x) : Guarded x := fun _ _ _ h => hx.error h

theorem Guarded.after {x : Run α} {f : α → Run β} (hx : Still x) (hf : ∀ a, Guarded (f a)) :
    Guarded (x >>= f) := by
  intro m e m' h
  rw [bind_apply] at h
  cases hrun : x m with
  | ok a m₁ =>
      rw [hrun, hx.ok hrun] at h
      exact hf a m e m' h
  | error f m₁ =>
      rw [hrun] at h
      cases h
      exact hx.error hrun

theorem Guarded.map {x : Run α} (hx : Guarded x) (g : α → β) :
    Guarded (x >>= fun a => pure (g a)) := by
  intro m e m' h
  rw [bind_apply] at h
  cases hrun : x m with
  | ok a m₁ =>
      rw [hrun] at h
      simp at h
  | error f m₁ =>
      rw [hrun] at h
      cases h
      exact hx m e m' hrun

theorem Guarded.ensures {x : Run α} {P E : Machine → Prop} {Q : α → Machine → Prop}
    (hx : Guarded x) (hok : ∀ m a m', P m → x m = .ok a m' → Q a m')
    (herror : ∀ m, P m → E m) : Ensures P x Q E := by
  intro m hm
  cases hrun : x m with
  | ok a m₁ => exact hok m a m₁ hm hrun
  | error e m₁ =>
      cases hx m e m₁ hrun
      exact herror m hm

theorem guarded_modify (f : Machine → Machine) : Guarded (modify f : Run PUnit) :=
  fun _ _ _ h => nomatch h

theorem guarded_keep (w : Write) (written : Except WriteError Store) :
    Guarded (keep span w written) :=
  .after (still_ofWrite _) fun _ => guarded_modify _

theorem guarded_assign (name : Name) : Guarded (assign names name v span) := by
  refine .after still_get fun m => ?_
  split
  · exact (still_fail _ _).guarded
  · split
    · exact guarded_modify _
    · exact (still_fail _ _).guarded

theorem still_handles (held : List Value) : Still (handles held) := fun _ => rfl

theorem guarded_writePlace : Guarded (writePlace names held p v span) := by
  unfold writePlace
  split
  · exact guarded_assign _
  · exact (still_fail _ _).guarded
  · exact .after (still_handles _) fun _ => .after (still_reach _ _ _ _ _) fun _ =>
      .after still_get fun _ => guarded_keep _ _

theorem guarded_mapSet : Guarded (mapSet names held p k v span) :=
  .after (still_handles _) fun _ => .after (still_reachMap _ _ _ _ _ _) fun map =>
    .after still_get fun _ => (guarded_keep _ _).map fun _ => map

theorem guarded_mapDelete : Guarded (mapDelete names held p k span) :=
  .after (still_handles _) fun _ => .after (still_reachMap _ _ _ _ _ _) fun _ =>
    .after still_get fun _ => .after (still_ofWrite _) fun (removed, _) =>
      (guarded_modify _).map fun _ => Value.bool removed

end Run

end PathCopy
