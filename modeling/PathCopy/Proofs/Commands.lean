import PathCopy.Proofs.Positions
import PathCopy.Proofs.Thinning

/-!
Commands on plain trees. A command leads through existing children to a container and sets or
deletes one key of it; where something on the way is missing, or the container is of the wrong sort,
it fails. A map entry that commands only delete can as well be left out from the start.
-/

namespace PathCopy

deriving instance DecidableEq for Scalar

inductive Action
  | assign (value : Scalar)
  | mapSet (value : Scalar)
  | mapDelete
  deriving DecidableEq

def Action.effect : Action → Effect
  | assign _ => .assign
  | mapSet _ => .mapSet
  | mapDelete => .mapDelete

/-- Steps to a container, and what is done there under a key. -/
structure Command where
  steps : List Step
  key : String
  action : Action
  deriving DecidableEq

namespace Command

def keys (c : Command) : List String := c.steps.map Step.text ++ [c.key]

def path (c : Command) : KeyPath := ⟨c.keys, c.action.effect⟩

end Command

def replaceEntry {α : Type} (key : String) (value : α) (es : List (String × α)) :
    List (String × α) :=
  es.map fun e => (e.1, if e.1 = key then value else e.2)

namespace Template

/-- The child that a step leads to: a field of a record, an element of a list, or an entry of a
map. -/
def child? : Template → Step → Option Template
  | .ofClass _ fields, .key k => findEntry k fields
  | .list items, .key k => (Number.readIndex? k).bind (items[·]?)
  | .map entries, .entry k => findEntry k entries
  | _, _ => none

def setChild : Template → Step → Template → Template
  | .ofClass cls fields, .key k, new => .ofClass cls (replaceEntry k new fields)
  | .list items, .key k, new =>
    match Number.readIndex? k with
    | some i => .list (items.set i new)
    | none => .list items
  | .map entries, .entry k, new => .map (replaceEntry k new entries)
  | t, _, _ => t

def follow : Template → List Step → Option Template
  | t, [] => some t
  | t, step :: steps => (t.child? step).bind fun c => c.follow steps

def replace : Template → List Step → Template → Template
  | _, [], new => new
  | t, step :: steps, new =>
    match t.child? step with
    | some c => t.setChild step (c.replace steps new)
    | none => t

/-- An action on a container. Fields and elements are assigned, entries of maps are set and deleted;
a list grows by one if the index is its length. -/
def act : Template → String → Action → Option Template
  | .ofClass cls fields, key, .assign a => some (.ofClass cls (putEntry key (.scalar a) fields))
  | .list items, key, .assign a =>
    (Number.readIndex? key).bind fun i =>
      if i < items.length then some (.list (items.set i (.scalar a)))
      else if i = items.length then some (.list (items ++ [.scalar a]))
      else none
  | .map entries, key, .mapSet a => some (.map (putEntry key (.scalar a) entries))
  | .map entries, key, .mapDelete => some (.map (entries.filter fun e => e.1 ≠ key))
  | _, _, _ => none

def perform (t : Template) (c : Command) : Option Template :=
  (t.follow c.steps).bind fun b => (b.act c.key c.action).map (t.replace c.steps)

def performAll (t : Template) (cs : List Command) : Option Template := cs.foldlM perform t

variable {R S : List String → Prop} {D E : String → Prop} {t b c : Template}
  {ts : List Template} {es : List (String × Template)} {k : String} {i : ℕ}

/-! ### Commands on thinned trees -/

theorem thinEntries_eq : thinEntries R D es =
    open Classical in (es.filter fun e => ¬ D e.1).map fun e =>
      (e.1, e.2.thin fun q => R (e.1 :: q)) := by
  induction es with
  | nil => rfl
  | cons e es ih =>
      rw [thinEntries]
      by_cases h : D e.1
      · simp [h, ih]
      · simp [h, ih]

theorem thinEntries_congr (hD : ∀ e ∈ es, E e.1 ↔ D e.1)
    (hR : ∀ e ∈ es, ∀ q, S (e.1 :: q) ↔ R (e.1 :: q)) :
    thinEntries S E es = thinEntries R D es := by
  induction es with
  | nil => rfl
  | cons e es ih =>
      obtain ⟨hDe, hD⟩ := List.forall_mem_cons.mp hD
      obtain ⟨hRe, hR⟩ := List.forall_mem_cons.mp hR
      have hbelow : (fun q => S (e.1 :: q)) = fun q => R (e.1 :: q) :=
        funext fun q => propext (hRe q)
      rw [thinEntries, thinEntries, ih hD hR, hbelow, propext hDe]

theorem thinItems_set (hk : Number.readIndex? k = some i)
    (hR : ∀ l q, l ≠ k → (S (l :: q) ↔ R (l :: q))) :
    thinItems S 0 (ts.set i c) = (thinItems R 0 ts).set i (c.thin fun q => S (k :: q)) := by
  refine List.ext_getElem? fun j => ?_
  rw [thinItems_eq_mapIdx, thinItems_eq_mapIdx, List.getElem?_mapIdx, List.getElem?_set,
    List.getElem?_set, List.length_mapIdx, List.getElem?_mapIdx]
  by_cases hij : i = j
  · subst hij
    rw [if_pos rfl, if_pos rfl, Nat.zero_add, item_eq hk]
    split <;> rfl
  · -- The keys of another index are not `k`.
    have hother : (fun q => ∃ l, Number.readIndex? l = some (0 + j) ∧ S (l :: q)) =
        fun q => ∃ l, Number.readIndex? l = some (0 + j) ∧ R (l :: q) := by
      funext q
      refine propext (exists_congr fun l => and_congr_right fun hl => hR l q ?_)
      rintro rfl
      rw [hk, Nat.zero_add] at hl
      exact hij (Option.some.inj hl)
    rw [if_neg hij, if_neg hij, hother]

theorem thinItems_append_scalar (a : Scalar) :
    thinItems R 0 (ts ++ [.scalar a]) = thinItems R 0 ts ++ [.scalar a] := by
  rw [thinItems_eq_mapIdx, thinItems_eq_mapIdx, List.mapIdx_concat]
  rfl

theorem thinEntries_replaceEntry (hD : ∀ l, E l ↔ D l)
    (hR : ∀ l q, l ≠ k → (S (l :: q) ↔ R (l :: q))) :
    thinEntries S E (replaceEntry k c es) =
      replaceEntry k (c.thin fun q => S (k :: q)) (thinEntries R D es) := by
  induction es with
  | nil => rfl
  | cons e es ih =>
      have hcons : ∀ (value : Template) (e : String × Template) (es : List (String × Template)),
          replaceEntry k value (e :: es) =
            (e.1, if e.1 = k then value else e.2) :: replaceEntry k value es :=
        fun _ _ _ => rfl
      rw [hcons, thinEntries, thinEntries, ih, propext (hD e.1)]
      split
      · rfl
      · rw [hcons]
        by_cases hk : e.1 = k
        · rw [if_pos hk, if_pos hk, hk]
        · have hbelow : (fun q => S (e.1 :: q)) = fun q => R (e.1 :: q) :=
            funext fun q => propext (hR e.1 q hk)
          simp only [if_neg hk, hbelow]

theorem thinEntries_putEntry (h : ¬ D k) : thinEntries R D (putEntry k c es) =
    putEntry k (c.thin fun q => R (k :: q)) (thinEntries R D es) := by
  induction es with
  | nil => simp [putEntry, thinEntries, h]
  | cons e es ih =>
      rw [putEntry, thinEntries]
      by_cases hk : e.1 = k
      · subst hk
        simp [thinEntries, h, putEntry]
      · by_cases hD : D e.1
        · simp [thinEntries, hk, hD, ih]
        · simp [thinEntries, hk, hD, ih, putEntry]

theorem thinEntries_filter_ne (hD : ∀ l, l ≠ k → (E l ↔ D l))
    (hR : ∀ l q, l ≠ k → (S (l :: q) ↔ R (l :: q))) :
    (thinEntries R D es).filter (fun e => e.1 ≠ k) =
      thinEntries S E (es.filter fun e => e.1 ≠ k) := by
  have hsame : thinEntries S E (es.filter fun e => e.1 ≠ k) =
      thinEntries R D (es.filter fun e => e.1 ≠ k) := by
    refine thinEntries_congr (fun e he => hD e.1 ?_) fun e he q => hR e.1 q ?_
    · simpa using (List.mem_filter.mp he).2
    · simpa using (List.mem_filter.mp he).2
  rw [hsame, thinEntries_eq, thinEntries_eq, List.filter_map, List.filter_filter,
    List.filter_filter]
  refine congrArg _ (List.filter_congr fun e _ => ?_)
  simp [Bool.and_comm]

theorem child?_thin {step : Step} (h : ¬ R [step.text]) :
    (t.thin R).child? step = (t.child? step).map (thin fun q => R (step.text :: q)) := by
  cases t with
  | scalar a => cases step <;> rfl
  | date ms => cases step <;> rfl
  | list ts =>
      cases step with
      | entry k => rfl
      | key k =>
          rw [thin, child?, child?, Step.text]
          cases hk : Number.readIndex? k with
          | none => rfl
          | some i => exact getElem?_thinItems hk
  | map es =>
      cases step with
      | key k => rfl
      | entry k =>
          rw [thin, child?, child?, findEntry_thinEntries]
          exact if_neg h
  | ofClass cls es =>
      cases step with
      | entry k => rfl
      | key k =>
          rw [thin, child?, child?, findEntry_thinEntries]
          exact if_neg id

theorem setChild_thin {step : Step} (hchild : t.child? step = some b)
    (hk : S [step.text] ↔ R [step.text])
    (hagree : ∀ l q, l ≠ step.text → (S (l :: q) ↔ R (l :: q))) :
    (t.setChild step c).thin S =
      (t.thin R).setChild step (c.thin fun q => S (step.text :: q)) := by
  have hD : ∀ l, S [l] ↔ R [l] := by
    intro l
    by_cases hl : l = step.text
    · rwa [hl]
    · exact hagree l [] hl
  cases t with
  | scalar a => cases step <;> cases hchild
  | date ms => cases step <;> cases hchild
  | list ts =>
      cases step with
      | entry k => cases hchild
      | key k =>
          obtain ⟨i, hi, -⟩ := Option.bind_eq_some_iff.mp hchild
          simp only [setChild, hi, thin]
          exact congrArg list (thinItems_set hi hagree)
  | map es =>
      cases step with
      | key k => cases hchild
      | entry k => exact congrArg map (thinEntries_replaceEntry hD hagree)
  | ofClass cls es =>
      cases step with
      | entry k => cases hchild
      | key k => exact congrArg (ofClass cls) (thinEntries_replaceEntry (fun _ => Iff.rfl) hagree)

theorem follow_thin {steps : List Step}
    (h : ∀ d, d ≠ [] → d <+: steps.map Step.text → ¬ R d) :
    (t.thin R).follow steps =
      (t.follow steps).map (thin fun q => R (steps.map Step.text ++ q)) := by
  induction steps generalizing t R with
  | nil => rfl
  | cons step steps ih =>
      have hhead : ¬ R [step.text] := h _ nofun (List.cons_prefix_cons.mpr ⟨rfl, List.nil_prefix⟩)
      rw [follow, follow, child?_thin hhead]
      cases t.child? step with
      | none => rfl
      | some c =>
          refine ih fun d hd hprefix => h _ nofun ?_
          exact List.cons_prefix_cons.mpr ⟨rfl, hprefix⟩

theorem replace_thin {steps : List Step} (hfollow : t.follow steps = some b)
    (h : ∀ d, d ≠ [] → d <+: steps.map Step.text → ¬ R d)
    (hagree : ∀ d, d ≠ steps.map Step.text ++ [k] → (S d ↔ R d)) :
    (t.replace steps c).thin S =
      (t.thin R).replace steps (c.thin fun q => S (steps.map Step.text ++ q)) := by
  induction steps generalizing t R S with
  | nil => rfl
  | cons step steps ih =>
      have hhead : ¬ R [step.text] := h _ nofun (List.cons_prefix_cons.mpr ⟨rfl, List.nil_prefix⟩)
      obtain ⟨u, hu, hrest⟩ := Option.bind_eq_some_iff.mp hfollow
      rw [replace, replace, child?_thin hhead, hu]
      dsimp only [Option.map_some]
      rw [setChild_thin hu (hagree _ (by simp)) fun l q hl => hagree _ (by simp [hl])]
      refine congrArg _ (ih hrest (fun d hd hprefix => h _ nofun ?_) fun d hd => hagree _ ?_)
      · exact List.cons_prefix_cons.mpr ⟨rfl, hprefix⟩
      · simpa using hd

theorem act_thin {a : Action} (hagree : ∀ d, d ≠ [k] → (S d ↔ R d)) (hsub : S [k] → R [k])
    (hdelete : R [k] → a = .mapDelete) :
    (t.thin R).act k a = (t.act k a).map (thin S) := by
  have hothers : ∀ l q, l ≠ k → (S (l :: q) ↔ R (l :: q)) := fun l q hl =>
    hagree _ fun he => hl (List.cons.inj he).1
  -- Unless the action deletes, it is at no position of either kind.
  have hsame : a ≠ .mapDelete → S = R := by
    intro ha
    funext d
    refine propext ?_
    by_cases hd : d = [k]
    · subst hd
      exact iff_of_false (fun hS => ha (hdelete (hsub hS))) fun hR => ha (hdelete hR)
    · exact hagree d hd
  have hkept : a ≠ .mapDelete → ¬ R [k] := fun ha hR => ha (hdelete hR)
  cases a with
  | assign a =>
      obtain rfl := hsame (by simp)
      cases t with
      | scalar b => rfl
      | date ms => rfl
      | map es => rfl
      | ofClass cls es =>
          exact congrArg (some ∘ ofClass cls) (thinEntries_putEntry (c := .scalar a) id).symm
      | list ts =>
          rw [thin, act, act, length_thinItems]
          cases hi : Number.readIndex? k with
          | none => rfl
          | some i =>
              rw [Option.bind_some, Option.bind_some]
              split
              · exact congrArg (some ∘ list)
                  (thinItems_set (c := .scalar a) hi fun _ _ _ => Iff.rfl).symm
              · split
                · exact congrArg (some ∘ list) (thinItems_append_scalar a).symm
                · rfl
  | mapSet a =>
      obtain rfl := hsame (by simp)
      cases t with
      | map es =>
          exact congrArg (some ∘ map)
            (thinEntries_putEntry (c := .scalar a) (hkept (by simp))).symm
      | _ => rfl
  | mapDelete =>
      cases t with
      | map es =>
          refine congrArg (some ∘ map) (thinEntries_filter_ne (fun l hl => ?_) hothers)
          exact hothers l [] hl
      | _ => rfl

/-- Entries that a command does not go through can be left out before it as well as after it, and
those that it deletes need not be there. -/
theorem perform_thin {c : Command} (hagree : ∀ d, d ≠ c.keys → (S d ↔ R d))
    (hsub : S c.keys → R c.keys) (hdelete : R c.keys → c.action = .mapDelete)
    (hends : ∀ d, d ≠ [] → d <+: c.keys → R d → d = c.keys) :
    (t.thin R).perform c = (t.perform c).map (thin S) := by
  have hfree : ∀ d, d ≠ [] → d <+: c.steps.map Step.text → ¬ R d := by
    intro d hd hsteps hR
    have hkeys := hends d hd (hsteps.trans (List.prefix_append _ _)) hR
    have hlength := hsteps.length_le
    simp [hkeys, Command.keys] at hlength
  rw [perform, perform, follow_thin hfree]
  cases hfollow : t.follow c.steps with
  | none => rfl
  | some b =>
      have hact : (b.thin fun q => R (c.steps.map Step.text ++ q)).act c.key c.action =
          (b.act c.key c.action).map (thin fun q => S (c.steps.map Step.text ++ q)) :=
        act_thin (fun d hd => hagree _ fun he => hd (List.append_cancel_left he)) hsub hdelete
      simp only [Option.map_some, Option.bind_some, hact, Option.map_map]
      cases b.act c.key c.action with
      | none => rfl
      | some b' => exact congrArg some (replace_thin hfollow hfree hagree).symm

/-- The entries that are dropped and that some of the commands delete. -/
def Pending (paths : List KeyPath) (cs : List Command) (d : List String) : Prop :=
  Dropped paths d ∧ ∃ c ∈ cs, c.path = ⟨d, .mapDelete⟩

theorem performAll_thin {paths : List KeyPath} {cs : List Command}
    (hpaths : ∀ c ∈ cs, c.path ∈ paths) :
    (t.thin (Pending paths cs)).performAll cs = t.performAll cs := by
  induction cs generalizing t with
  | nil => exact congrArg some (thin_eq_self fun _ _ ⟨_, _, hc, _⟩ => nomatch hc)
  | cons c cs ih =>
      obtain ⟨hc, hcs⟩ := List.forall_mem_cons.mp hpaths
      have hstep : (t.thin (Pending paths (c :: cs))).perform c =
          (t.perform c).map (thin (Pending paths cs)) := by
        refine perform_thin (fun d hd => ?_) ?_ ?_ ?_
        · refine and_congr_right fun _ => ⟨fun ⟨c', hc', he⟩ => ⟨c', .tail _ hc', he⟩, ?_⟩
          rintro ⟨c', hc', he⟩
          refine ⟨c', (List.mem_cons.mp hc').resolve_left ?_, he⟩
          rintro rfl
          exact hd (congrArg KeyPath.keys he).symm
        · rintro ⟨hdropped, c', hc', he⟩
          exact ⟨hdropped, c', .tail _ hc', he⟩
        · rintro ⟨⟨-, hall⟩, -⟩
          have heffect : c.action.effect = .mapDelete := (hall _ hc (List.prefix_refl _)).2
          cases haction : c.action with
          | mapDelete => rfl
          | _ =>
              rw [haction] at heffect
              cases heffect
        · rintro d - hd ⟨⟨-, hall⟩, -⟩
          exact (hall _ hc hd).1.symm
      rw [performAll, performAll, List.foldlM_cons, List.foldlM_cons, hstep]
      cases t.perform c with
      | none => rfl
      | some t' => exact ih hcs

/-- Commands do the same on a tree without the entries that are dropped for them. -/
theorem performAll_dropped {paths : List KeyPath} {cs : List Command}
    (hpaths : ∀ kp, kp ∈ paths ↔ kp ∈ cs.map Command.path) :
    (t.thin (Dropped paths)).performAll cs = t.performAll cs := by
  have hpending : Dropped paths = Pending paths cs := by
    funext d
    refine propext ⟨fun hdropped => ⟨hdropped, ?_⟩, And.left⟩
    obtain ⟨kp, hkp, rfl, heffect⟩ := hdropped.1
    obtain ⟨c, hc, rfl⟩ := List.mem_map.mp ((hpaths kp).mp hkp)
    exact ⟨c, hc, by rw [← heffect]⟩
  rw [hpending]
  exact performAll_thin fun c hc => (hpaths _).mpr (List.mem_map_of_mem hc)

end Template

end PathCopy
