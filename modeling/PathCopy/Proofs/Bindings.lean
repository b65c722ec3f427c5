import PathCopy.Run.Scope

/-!
Scopes as sets of bindings: what a name finds after a scope has changed, and which values the scopes
hold then.
-/

namespace PathCopy

namespace Scope

variable {s : Scope} {name other : Name} {b c : Binding}

theorem find?_put (s : Scope) (name other : Name) (b : Binding) :
    (s.put name b).find? other = if other = name then some b else s.find? other := by
  induction s with
  | nil => simp [put, find?, eq_comm]
  | cons e s ih =>
      unfold put
      split
      · next he =>
        subst he
        by_cases hother : other = e.1 <;> simp [find?, hother, eq_comm]
      · next he =>
        by_cases hother : e.1 = other
        · subst hother
          simp [find?, he]
        · simp [find?, hother, ih]

theorem mem_put {e : Name × Binding} (h : e ∈ s.put name b) : e.2 = b ∨ e ∈ s := by
  induction s with
  | nil =>
      rw [List.mem_singleton.mp h]
      exact .inl rfl
  | cons f s ih =>
      unfold put at h
      split at h
      · rcases List.mem_cons.mp h with rfl | h
        · exact .inl rfl
        · exact .inr (List.mem_cons_of_mem _ h)
      · rcases List.mem_cons.mp h with rfl | h
        · exact .inr List.mem_cons_self
        · exact (ih h).imp id (List.mem_cons_of_mem _)

theorem mem_of_find? (h : s.find? name = some b) : (name, b) ∈ s := by
  induction s with
  | nil => cases h
  | cons e s ih =>
      rw [find?] at h
      split at h
      · next he =>
        cases h
        exact he ▸ List.mem_cons_self
      · exact List.mem_cons_of_mem _ (ih h)

/-- Beside the binding of a name stand the bindings of all other names. -/
theorem find?_split (h : s.find? name = some b) :
    ∃ rest : Scope, s.Perm ((name, b) :: rest) ∧
      ∀ other c, other ≠ name → s.find? other = some c → (other, c) ∈ rest := by
  obtain ⟨before, after, rfl⟩ := List.append_of_mem (mem_of_find? h)
  refine ⟨before ++ after, List.perm_middle, fun other c hother hc => ?_⟩
  have hmem := mem_of_find? hc
  rw [List.mem_append, List.mem_cons] at hmem
  rcases hmem with hmem | hmem | hmem
  · exact List.mem_append_left _ hmem
  · cases hmem
    exact absurd rfl hother
  · exact List.mem_append_right _ hmem

end Scope

namespace Scopes

variable {ss : Scopes} {name other : Name} {b c : Binding} {v w : Value}

theorem values_cons (s : Scope) (ss : Scopes) :
    values (s :: ss) = (s.map fun e => e.2.value) ++ values ss := rfl

theorem mem_values_of_find? (h : ss.find? name = some b) : b.value ∈ ss.values := by
  induction ss with
  | nil => cases h
  | cons s ss ih =>
      rw [values_cons]
      rw [find?] at h
      cases hs : s.find? name with
      | some c =>
          simp only [hs] at h
          cases h
          exact List.mem_append_left _ (List.mem_map_of_mem (f := fun e => e.2.value)
            (Scope.mem_of_find? hs))
      | none =>
          simp only [hs] at h
          exact List.mem_append_right _ (ih h)

theorem values_split (h : ss.find? name = some b) :
    ∃ rest, ss.values.Perm (b.value :: rest) ∧
      ∀ other c, other ≠ name → ss.find? other = some c → c.value ∈ rest := by
  -- An inner scope hides an outer one, so the first scope that binds the name is split.
  induction ss with
  | nil => cases h
  | cons s ss ih =>
      rw [find?] at h
      cases hs : s.find? name with
      | some d =>
          simp only [hs] at h
          cases h
          obtain ⟨rest, hperm, hrest⟩ := Scope.find?_split hs
          refine ⟨rest.map (fun e => e.2.value) ++ values ss, ?_, fun other c hother hc => ?_⟩
          · rw [values_cons]
            exact (hperm.map _).append_right _
          · rw [find?] at hc
            cases hso : s.find? other with
            | some d =>
                simp only [hso] at hc
                cases hc
                exact List.mem_append_left _ (List.mem_map_of_mem (f := fun e => e.2.value)
                  (hrest other c hother hso))
            | none =>
                simp only [hso] at hc
                exact List.mem_append_right _ (mem_values_of_find? hc)
      | none =>
          simp only [hs] at h
          obtain ⟨rest, hperm, hrest⟩ := ih h
          refine ⟨s.map (fun e => e.2.value) ++ rest, ?_, fun other c hother hc => ?_⟩
          · rw [values_cons]
            exact (hperm.append_left _).trans List.perm_middle
          · rw [find?] at hc
            cases hso : s.find? other with
            | some d =>
                simp only [hso] at hc
                cases hc
                exact List.mem_append_left _ (List.mem_map_of_mem (f := fun e => e.2.value)
                  (Scope.mem_of_find? hso))
            | none =>
                simp only [hso] at hc
                exact List.mem_append_right _ (hrest other c hother hc)

theorem mem_values_put {s : Scope} (h : v ∈ values (s.put name b :: ss)) :
    v = b.value ∨ v ∈ values (s :: ss) := by
  rw [values_cons] at h ⊢
  rcases List.mem_append.mp h with h | h
  · obtain ⟨e, he, rfl⟩ := List.mem_map.mp h
    rcases Scope.mem_put he with hb | he
    · exact .inl (congrArg Binding.value hb)
    · exact .inr (List.mem_append_left _ (List.mem_map_of_mem (f := fun e => e.2.value) he))
  · exact .inr (List.mem_append_right _ h)

theorem mem_values_define (h : v ∈ (ss.define name b).values) : v = b.value ∨ v ∈ ss.values := by
  cases ss with
  | nil => exact .inr h
  | cons s ss => exact mem_values_put h

theorem mem_values_setValue (h : v ∈ (ss.setValue name w).values) : v = w ∨ v ∈ ss.values := by
  induction ss with
  | nil => exact .inr h
  | cons s ss ih =>
      rw [setValue] at h
      split at h
      · exact mem_values_put h
      · rw [values_cons] at h ⊢
        rcases List.mem_append.mp h with h | h
        · exact .inr (List.mem_append_left _ h)
        · exact (ih h).imp id (List.mem_append_right _)

theorem mem_values_tail (h : v ∈ values ss.tail) : v ∈ ss.values := by
  cases ss with
  | nil => exact h
  | cons s ss => exact List.mem_append_right _ h

theorem find?_setValue (ss : Scopes) (name other : Name) (v : Value) :
    (ss.setValue name v).find? other =
      if other = name then (ss.find? name).map ({ · with value := v }) else ss.find? other := by
  induction ss with
  | nil => simp [setValue, find?]
  | cons s ss ih =>
      rw [setValue]
      cases hs : s.find? name with
      | some b =>
          simp only [find?, Scope.find?_put, hs]
          by_cases hother : other = name
          · simp [hother]
          · simp [hother]
      | none =>
          simp only [find?, hs, ih]
          by_cases hother : other = name
          · simp [hother, hs]
          · simp [hother]

theorem find?_define (s : Scope) (ss : Scopes) (name other : Name) (b : Binding) :
    find? other (define name b (s :: ss)) =
      if other = name then some b else find? other (s :: ss) := by
  rw [define, find?, Scope.find?_put]
  by_cases hother : other = name
  · simp [hother]
  · simp [hother, find?]

theorem find?_define_of_ne (ss : Scopes) (h : other ≠ name) (b : Binding) :
    (ss.define name b).find? other = ss.find? other := by
  cases ss with
  | nil => rfl
  | cons s ss => rw [find?_define, if_neg h]

end Scopes

/-! ### Scopes with other values -/

def Binding.map (f : Value → Value) (b : Binding) : Binding := { b with value := f b.value }

def Scope.map (f : Value → Value) (s : Scope) : Scope := List.map (fun e => (e.1, e.2.map f)) s

def Scopes.map (f : Value → Value) (ss : Scopes) : Scopes := List.map (Scope.map f) ss

section Map

variable {f g : Value → Value} {s : Scope} {ss : Scopes} {name : Name} {b : Binding} {v : Value}

theorem Scope.find?_map : Scope.find? name (s.map f) = (s.find? name).map (Binding.map f) := by
  induction s with
  | nil => rfl
  | cons e s ih =>
      show Scope.find? name ((e.1, e.2.map f) :: Scope.map f s) = _
      rw [Scope.find?, Scope.find?]
      split
      · rfl
      · exact ih

theorem Scope.put_map : Scope.put name (b.map f) (s.map f) = (s.put name b).map f := by
  induction s with
  | nil => rfl
  | cons e s ih =>
      show Scope.put name (b.map f) ((e.1, e.2.map f) :: Scope.map f s) = _
      rw [Scope.put, Scope.put]
      split
      · rfl
      · rw [ih]
        rfl

theorem Scopes.map_cons : Scopes.map f (s :: ss) = s.map f :: Scopes.map f ss := rfl

theorem Scopes.find?_map : Scopes.find? name (ss.map f) = (ss.find? name).map (Binding.map f) := by
  induction ss with
  | nil => rfl
  | cons s ss ih =>
      rw [Scopes.map_cons, Scopes.find?, Scopes.find?, Scope.find?_map]
      cases s.find? name with
      | some b => rfl
      | none => exact ih

theorem Scopes.values_map : Scopes.values (ss.map f) = ss.values.map f := by
  induction ss with
  | nil => rfl
  | cons s ss ih =>
      rw [Scopes.map_cons, Scopes.values_cons, Scopes.values_cons, List.map_append, ih]
      simp [Scope.map, Binding.map, Function.comp_def]

theorem Scopes.define_map : Scopes.define name (b.map f) (ss.map f) = (ss.define name b).map f := by
  cases ss with
  | nil => rfl
  | cons s ss =>
      rw [Scopes.map_cons, Scopes.define, Scopes.define, Scope.put_map, Scopes.map_cons]

theorem Scopes.setValue_map :
    Scopes.setValue name (f v) (ss.map f) = (ss.setValue name v).map f := by
  induction ss with
  | nil => rfl
  | cons s ss ih =>
      rw [Scopes.map_cons, Scopes.setValue, Scopes.setValue, Scope.find?_map]
      cases s.find? name with
      | some b =>
          have hput : Scope.put name (Binding.map f { b with value := v }) (s.map f) =
              (s.put name { b with value := v }).map f := Scope.put_map
          exact congrArg (· :: Scopes.map f ss) hput
      | none => exact congrArg (Scope.map f s :: ·) ih

theorem Scopes.map_congr (h : ∀ v ∈ ss.values, f v = g v) : ss.map f = ss.map g := by
  refine List.map_congr_left fun s hs => List.map_congr_left fun e he => ?_
  have hvalue : e.2.value ∈ ss.values := List.mem_flatMap.mpr ⟨s, hs, List.mem_map_of_mem he⟩
  rw [Binding.map, Binding.map, h _ hvalue]

theorem Scope.map_eq_self (h : ∀ v ∈ Scopes.values [s], f v = v) : s.map f = s := by
  have hmap : List.map (fun e : Name × Binding => (e.1, e.2.map f)) s = List.map id s := by
    refine List.map_congr_left fun e he => ?_
    have hvalue : e.2.value ∈ Scopes.values [s] :=
      List.mem_flatMap.mpr ⟨s, List.mem_singleton_self s, List.mem_map_of_mem he⟩
    rw [Binding.map, h _ hvalue]
    rfl
  exact hmap.trans (List.map_id s)

theorem Scopes.map_eq_self (h : ∀ v ∈ ss.values, f v = v) : ss.map f = ss := by
  have hmap : List.map (Scope.map f) ss = List.map id ss := by
    refine List.map_congr_left fun s hs => Scope.map_eq_self fun v hv => h v ?_
    obtain ⟨s', hs', hv⟩ := List.mem_flatMap.mp hv
    rw [List.mem_singleton.mp hs'] at hv
    exact List.mem_flatMap.mpr ⟨s, hs, hv⟩
  exact hmap.trans (List.map_id ss)

end Map

end PathCopy
